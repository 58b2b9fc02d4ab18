import TreeRules.Indent.Action
import TreeRules.Target

/-! # Anchor columns

The display column that an anchor stands for at a target. Anchors that lean on a node which is not
there fall back to the start of the parent's line, or to the margin.
-/
namespace TreeRules

/-! ## Comment markers -/

/-- The start of a line of comment: margin, a marker, and blanks after it. -/
structure CommentStart where
  margin : List Char
  marker : List Char
  gap : List Char
  deriving DecidableEq, Repr

namespace CommentStart

/-- Whether a character is a space or a tab. -/
def isSpace (c : Char) : Bool := c == ' ' || c == '\t'

/-- The comment marker at the front of a text: a slash with stars, stars, two or more slashes,
number signs, or two or more dashes. -/
def markerOf (text : List Char) : List Char :=
  let run (c : Char) (text : List Char) := text.takeWhile (· == c)
  match text with
  | '/' :: '*' :: rest => '/' :: '*' :: run '*' rest
  | '*' :: rest => '*' :: run '*' rest
  | '/' :: '/' :: rest => '/' :: '/' :: run '/' rest
  | '#' :: rest => '#' :: run '#' rest
  | '-' :: '-' :: rest => '-' :: '-' :: run '-' rest
  | _ => []

def ofLine (line : List Char) : CommentStart :=
  let margin := line.takeWhile isSpace
  let rest := line.dropWhile isSpace
  let marker := markerOf rest
  ⟨margin, marker, (rest.drop marker.length).takeWhile isSpace⟩

end CommentStart

/-! ## Chains of member accesses -/

namespace MemberChain

def operators : List String := [".", "?.", "->", "::"]

/-- The node types of a chain. Values that are no texts name no type. -/
def kindsOf (chain : List Value) : Outcome (List String) :=
  if chain.all Value.isKey then
    .ok (chain.filterMap fun | .text kind => some kind | _ => none)
  else .error .wrongKind

/-- The highest node that is reached from a node by parents of the chain's types. -/
def topFrom (kinds : List String) (node : Tree) : List Tree → Place
  | [] => ⟨node, []⟩
  | parent :: above =>
    if kinds.contains parent.kind then topFrom kinds parent above else ⟨node, parent :: above⟩

/-- The first node of the chain's types from a node upwards. -/
def link? (kinds : List String) (place : Place) : Option Place :=
  place.upwards.find? (kinds.contains ·.kind)

/-- The links of a chain from its top down: each is the first child of the one before. -/
def links (kinds : List String) (above : List Tree) : Tree → List Place
  | .node label [] => if kinds.contains label.kind then [⟨.node label [], above⟩] else []
  | .node label (child :: rest) =>
    if kinds.contains label.kind then
      ⟨.node label (child :: rest), above⟩ ::
        links kinds (.node label (child :: rest) :: above) child
    else []

def operatorsOf (kinds : List String) (top : Place) : List Place :=
  (links kinds top.above top.node).flatMap fun link =>
    link.children.filter fun child => !child.node.label.named && operators.contains child.kind

/-- The place with the smallest start, the first one of those. -/
def earliest? : List Place → Option Place
  | [] => none
  | place :: rest =>
    match earliest? rest with
    | some other => if other.start < place.start then some other else some place
    | none => some place

end MemberChain

/-! ## Anchors -/

namespace Column

variable (doc : Document) (target : Target)

/-- The last row before a row that is not blank. -/
def rowBefore? : Nat → Option Nat
  | 0 => none
  | row + 1 => if doc.source.rowInk row = doc.source.rowStop row then rowBefore? row else some row

def rowOf : Nat := (target.row.getD 0).toNat

def columnOf (place : Place) : Int := doc.columnOf place.start

def atParentLine : Int :=
  match target.parent with
  | some parent => doc.rowColumn parent
  | none => 0

/-- The parent if it starts its line, else the start of its line. -/
def atStandaloneParent : Int :=
  match target.parent with
  | some parent => if doc.startsRow parent then columnOf doc parent else atParentLine doc target
  | none => atParentLine doc target

/-- A node, or the margin if it is not there. -/
def atNode : Option Place → Int
  | some place => columnOf doc place
  | none => 0

def atFirstSibling : Int :=
  match target.parent.bind (·.children.head?) with
  | some sibling => columnOf doc sibling
  | none => atParentLine doc target

/-- The child before the target: before its node, or the last child of the parent that ends before
the line's text. -/
def siblingBefore? : Option Place :=
  match target.node, target.parent, target.ink with
  | some node, _, _ => node.previous?
  | none, some parent, some ink =>
    (parent.children.filter fun child => (child.stop : Int) ≤ ink).getLast?
  | _, _, _ => none

def atPreviousSibling : Int :=
  match siblingBefore? target with
  | some sibling => columnOf doc sibling
  | none => atParentLine doc target

/-- The start of the last line before that is not blank. -/
def atPreviousLine : Int :=
  match rowBefore? doc (rowOf target) with
  | some row => doc.source.rowColumn doc.tabWidth row
  | none => 0

def commentStart (row : Nat) : CommentStart :=
  CommentStart.ofLine (doc.source.textOf (doc.source.rowStart row) (doc.source.rowStop row))

/-- The column for a line after a line of comment: below the marker for a line with a marker of its
own, where the star counts in an opening marker, and else below the text. -/
def afterComment (before current : CommentStart) : Int :=
  let margin : Int := Tabs.width doc.tabWidth before.margin
  if before.marker.isEmpty then margin
  else if current.marker.isEmpty then margin + before.marker.length + before.gap.length
  else if before.marker.take 2 = ['/', '*'] ∧ current.marker.head? = some '*' then margin + 1
  else margin

/-- The comment marker of the line before, or the text after it. -/
def atCommentText : Int :=
  match rowBefore? doc (rowOf target) with
  | some row => afterComment doc (commentStart doc row) (commentStart doc (rowOf target))
  | none => atParentLine doc target

/-- The earliest operator of the target's chain that starts its line before the target's, or else
one unit further than the line on which the chain starts. -/
def atMemberChain (kinds : List String) (unit : Int) : Int :=
  match (target.node.or target.parent).bind (MemberChain.link? kinds) with
  | some link =>
    let top := MemberChain.topFrom kinds link.node link.above
    let ink := target.ink.getD 0
    let aligned := (MemberChain.operatorsOf kinds top).filter fun operator =>
      (operator.start : Int) < ink && doc.startsRow operator
    match MemberChain.earliest? aligned with
    | some operator => columnOf doc operator
    | none => doc.rowColumn top + unit
  | none => atParentLine doc target

def ofAnchor (unit : Int) (action : IndentAction) : Outcome Int :=
  match action.anchor with
  | .margin => .ok 0
  | .parentLine => .ok (atParentLine doc target)
  | .standaloneParent => .ok (atStandaloneParent doc target)
  | .grandparent => .ok (atNode doc target.grandparent)
  | .commentText => .ok (atCommentText doc target)
  | .parent => .ok (atNode doc target.parent)
  | .firstSibling => .ok (atFirstSibling doc target)
  | .previousSibling => .ok (atPreviousSibling doc target)
  | .previousLine => .ok (atPreviousLine doc target)
  | .memberChain =>
    (MemberChain.kindsOf action.chain).map fun kinds => atMemberChain doc target kinds unit

end Column

end TreeRules
