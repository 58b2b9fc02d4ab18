import TreeRules.Grammar
import TreeRules.Source
import TreeRules.Tree.Walk

/-! # Documents

A source with its tree, the width of its tabs, and what the query engine captures in it. A document
is a snapshot: if the tree was edited, or does not fit the source, it is stale.
-/
namespace TreeRules

/-- A parsed source. -/
structure Document where
  language : String
  source : Source
  tree : Tree
  tabWidth : Int := 8
  /-- The nodes that a query captures under each name, in all of the tree or in a range of bytes. -/
  captures : (query : String) → Option (Int × Int) → List (String × List Place)
  toolkit : Toolkit

namespace Document

variable (doc : Document)

def root : Place := ⟨doc.tree, []⟩

/-- Fails if the tree does not describe the source. -/
def checkFresh : Outcome Unit :=
  if doc.tree.label.changed then .error (.tree .edited)
  else if doc.source.size < doc.tree.stop then
    .error (.tree (.beyondSource doc.tree.stop doc.source.size))
  else .ok ()

theorem checkFresh_eq_ok_iff : doc.checkFresh = .ok () ↔
    doc.tree.label.changed = false ∧ doc.tree.stop ≤ doc.source.size := by
  unfold checkFresh
  cases doc.tree.label.changed with
  | true => simp
  | false =>
    rcases Nat.lt_or_ge doc.source.size doc.tree.stop with h | h
    · simp [h, Nat.not_le.2 h]
    · simp [h, Nat.not_lt.2 h]

/-- Fails if a node does not describe a part of the source. -/
def checkNode (place : Place) : Outcome Unit :=
  if place.node.label.changed then .error (.tree (.staleNode place.kind place.start))
  else if doc.source.size < place.stop ∨ place.stop < place.start then
    .error (.tree (.nodeOutside place.kind place.start place.stop))
  else .ok ()

def textOf (place : Place) : List Char := doc.source.textOf place.start place.stop

def rowOf (place : Place) : Nat := doc.source.rowOf place.start

def columnOf (byte : Int) : Nat := doc.source.columnOf doc.tabWidth byte

/-- The display column at which the text of the row of a node starts. -/
def rowColumn (place : Place) : Nat := doc.source.rowColumn doc.tabWidth (doc.rowOf place)

/-- Whether nothing but margin stands before a node in its row. -/
def startsRow (place : Place) : Bool := doc.source.rowInk (doc.rowOf place) == place.start

/-- The smallest node around a byte; none if there is nothing but white space. -/
def smallestAround (byte : Int) : Option Place :=
  if doc.source.isBlank then none else some (doc.tree.descend byte)

end Document

end TreeRules
