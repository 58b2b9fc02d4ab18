import TreeRules.Text.Blank
import TreeRules.Text.Digit
import TreeRules.Text.LetterCase
import TreeRules.Text.Word

/-! # Pattern expressions

The expressions that patterns denote. The switches in force where a part of a pattern stands, such
as letter case, are kept with that part.
-/
namespace TreeRules.Pattern

/-- The switches in force at a place of a pattern. -/
structure Mode where
  ignoreCase : Bool := false
  multiline : Bool := false
  dotAll : Bool := false
  verbose : Bool := false
  ascii : Bool := false
  deriving DecidableEq, Repr, Inhabited

/-- Named classes of characters. -/
inductive Category where
  | digit
  | blank
  | word
  deriving DecidableEq, Repr

/-- A member of a class of characters. -/
inductive Item where
  | one (c : Char)
  | range (first last : Char)
  | category (category : Category) (negated : Bool)
  deriving DecidableEq, Repr

/-- A place between two characters that a pattern can ask for. -/
inductive Edge where
  | lineStart
  | lineEnd
  | textStart
  | textEnd
  | wordEdge
  | notWordEdge
  deriving DecidableEq, Repr

/-- The order in which a loop tries its numbers of rounds. -/
inductive Greed where
  | greedy
  | lazy
  | possessive
  deriving DecidableEq, Repr

/-- A pattern expression. -/
inductive Expr where
  | empty
  | char (mode : Mode) (c : Char)
  | any (mode : Mode)
  | set (mode : Mode) (negated : Bool) (items : List Item)
  | edge (mode : Mode) (place : Edge)
  | seq (first rest : Expr)
  | alt (left right : Expr)
  | loop (greed : Greed) (least : Nat) (most : Option Nat) (body : Expr)
  | group (number : Nat) (body : Expr)
  | again (mode : Mode) (number : Nat)
  | ahead (negated : Bool) (body : Expr)
  | behind (negated : Bool) (width : Nat) (body : Expr)
  | atomic (body : Expr)
  | branch (number : Nat) (present absent : Expr)
  deriving Repr, Inhabited

namespace Mode

/-- The lower case of a character, as far as the mode knows letters. -/
def lower (mode : Mode) (c : Char) : Char := if mode.ascii then c.toLower else LetterCase.lower c

/-- The lower-case characters that stand for the same letter as a lower-case one. -/
def letters (mode : Mode) (c : Char) : List Char :=
  if mode.ascii then [c] else LetterCase.sameLetter c

/-- Whether a character of a text is the one a pattern asks for. -/
def same (mode : Mode) (wanted c : Char) : Bool :=
  if mode.ignoreCase then (mode.letters (mode.lower wanted)).contains (mode.lower c)
  else wanted == c

def isWord (mode : Mode) (c : Char) : Bool :=
  if mode.ascii then c.isAlphanum || c == '_' else Word.isWord c

def inCategory (mode : Mode) (c : Char) : Category → Bool
  | .digit => if mode.ascii then c.isDigit else Digit.isDigit c
  | .blank => if mode.ascii then c.toNat == 32 || (9 ≤ c.toNat && c.toNat ≤ 13) else Blank.isBlank c
  | .word => mode.isWord c

/-- Whether a character is one of those that an item stands for. -/
def inItem (mode : Mode) (c : Char) : Item → Bool
  | .one wanted => mode.same wanted c
  | .range first last =>
    if mode.ignoreCase then
      let low := mode.lower c
      let same (letter : Char) : Bool := (mode.letters (mode.lower letter)).contains low
      ((mode.letters low).flatMap fun letter => letter :: LetterCase.raised letter).any
        fun letter => first ≤ letter && letter ≤ last && same letter
    else first ≤ c && c ≤ last
  | .category category negated => mode.inCategory c category != negated

/-- Whether a character is in a class of characters. -/
def inSet (mode : Mode) (negated : Bool) (items : List Item) (c : Char) : Bool :=
  items.any (mode.inItem c) != negated

end Mode

/-- The least and the greatest number of characters; the latter may be unbounded. -/
abbrev Width := Nat × Option Nat

namespace Width

def add (x y : Width) : Width :=
  (x.1 + y.1, x.2.bind fun a => y.2.map (a + ·))

def join (x y : Width) : Width :=
  (min x.1 y.1, x.2.bind fun a => y.2.map (max a ·))

def times (x : Width) (least : Nat) (most : Option Nat) : Width :=
  (x.1 * least,
    match x.2, most with
    | some 0, _ | _, some 0 => some 0
    | some n, some m => some (n * m)
    | _, _ => none)

end Width

namespace Expr

/-- The number of characters an expression can take, given that of the groups it refers to. -/
def width (groups : List (Nat × Width)) : Expr → Width
  | .empty | .edge .. | .ahead .. | .behind .. => (0, some 0)
  | .char .. | .any _ | .set .. => (1, some 1)
  | .seq first rest => (first.width groups).add (rest.width groups)
  | .alt left right => (left.width groups).join (right.width groups)
  | .loop _ least most body => (body.width groups).times least most
  | .group _ body | .atomic body => body.width groups
  | .again _ number => (groups.lookup number).getD (0, some 0)
  | .branch _ present absent => (present.width groups).join (absent.width groups)

def ofList (parts : List Expr) : Expr := parts.foldr .seq .empty

end Expr

end TreeRules.Pattern
