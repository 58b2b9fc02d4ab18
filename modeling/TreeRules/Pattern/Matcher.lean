import TreeRules.Pattern.Expr

/-! # Matching by backtracking

A match is a walk through a text. An expression tries its possibilities in order and hands each
place it can reach to what follows, until one of them leads to the end. A loop makes no further
round after a round that took no character, so the rest of the text bounds the rounds.
-/
namespace TreeRules.Pattern

/-- A place in a text: what lies before it, nearest first, what lies after it, and the texts that
the groups took. -/
structure Cursor where
  before : List Char
  after : List Char
  groups : List (Nat × List Char)
  deriving Inhabited

namespace Cursor

def start (text : List Char) : Cursor := ⟨[], text, []⟩

/-- One character further, if there is one that passes a test. -/
def take? (cursor : Cursor) (test : Char → Bool) : Option Cursor :=
  match cursor.after with
  | c :: rest =>
    if test c then some { cursor with before := c :: cursor.before, after := rest } else none
  | [] => none

/-- A number of characters back, if there are so many. -/
def back? (cursor : Cursor) : Nat → Option Cursor
  | 0 => some cursor
  | n + 1 =>
    match cursor.before with
    | c :: rest => back? { cursor with before := rest, after := c :: cursor.after } n
    | [] => none

/-- Past the characters of a text, if they follow. -/
def takeAll? (cursor : Cursor) (same : Char → Char → Bool) : List Char → Option Cursor
  | [] => some cursor
  | c :: rest => (cursor.take? (same c)).bind (takeAll? · same rest)

def record (cursor : Cursor) (number : Nat) (text : List Char) : Cursor :=
  { cursor with groups := (number, text) :: cursor.groups }

def atWordEdge (cursor : Cursor) (mode : Mode) : Bool :=
  cursor.before.head?.any mode.isWord != cursor.after.head?.any mode.isWord

/-- Whether a place is one that a pattern asks for. In an empty text no place has to do with
words. -/
def isAt (cursor : Cursor) (mode : Mode) : Edge → Bool
  | .lineStart => cursor.before.isEmpty || (mode.multiline && cursor.before.head? == some '\n')
  | .lineEnd =>
    cursor.after.isEmpty || cursor.after == ['\n'] ||
      (mode.multiline && cursor.after.head? == some '\n')
  | .textStart => cursor.before.isEmpty
  | .textEnd => cursor.after.isEmpty
  | .wordEdge => cursor.atWordEdge mode
  | .notWordEdge => !(cursor.before.isEmpty && cursor.after.isEmpty) && !cursor.atWordEdge mode

end Cursor

/-- What follows a place: the end of the walk, if there is one. -/
abbrev Next := Cursor → Option Cursor

/-- A part of a walk, given what follows it. -/
abbrev Walk := Cursor → Next → Option Cursor

/-- The first place that a walk reaches, and no other. -/
def Walk.first (walk : Walk) : Walk := fun cursor next => (walk cursor some).bind next

def rounds (walk : Walk) : Nat → Walk
  | 0 => fun cursor next => next cursor
  | n + 1 => fun cursor next => walk cursor fun cursor => rounds walk n cursor next

/-- Whether a round came forward. -/
def advanced (old new : Cursor) : Bool := new.after.length < old.after.length

/-- At most `n` further rounds, in the order of preference; none after one that took nothing. -/
def further (walk : Walk) (greed : Greed) : Nat → Walk
  | 0 => fun cursor next => next cursor
  | n + 1 => fun cursor next =>
    let again := fun new =>
      if advanced cursor new then further walk greed n new next else next new
    match greed with
    | .greedy => (walk cursor again).or (next cursor)
    | .lazy => (next cursor).or (walk cursor again)
    | .possessive =>
      match walk cursor some with
      | some new => again new
      | none => next cursor

/-- A loop of at least `least` and at most `most` rounds. -/
def loop (walk : Walk) (greed : Greed) (least : Nat) (most : Option Nat) : Walk :=
  fun cursor next =>
    rounds walk least cursor fun cursor =>
      let bound := cursor.after.length + 1
      further walk greed (most.elim bound fun most => min (most - least) bound) cursor next

/-- The walk of an expression. -/
def Expr.walk : Expr → Walk
  | .empty => fun cursor next => next cursor
  | .char mode c => fun cursor next => (cursor.take? (mode.same c)).bind next
  | .any mode => fun cursor next => (cursor.take? fun c => mode.dotAll || c != '\n').bind next
  | .set mode negated items => fun cursor next =>
    (cursor.take? (mode.inSet negated items)).bind next
  | .edge mode place => fun cursor next => if cursor.isAt mode place then next cursor else none
  | .seq first rest => fun cursor next => first.walk cursor fun cursor => rest.walk cursor next
  | .alt left right => fun cursor next => (left.walk cursor next).or (right.walk cursor next)
  | .loop greed least most body =>
    Pattern.loop (if greed = .possessive then Walk.first body.walk else body.walk) greed least most
  | .group number body => fun cursor next =>
    body.walk cursor fun new =>
      next (new.record number (cursor.after.take (cursor.after.length - new.after.length)))
  | .again mode number => fun cursor next =>
    match cursor.groups.lookup number with
    | some text =>
      (cursor.takeAll? (fun a b => if mode.ignoreCase then mode.lower a == mode.lower b else a == b)
        text).bind next
    | none => none
  | .ahead negated body => fun cursor next =>
    match body.walk cursor some with
    | some new => if negated then none else next { cursor with groups := new.groups }
    | none => if negated then next cursor else none
  | .behind negated width body => fun cursor next =>
    match (cursor.back? width).bind fun start => body.walk start some with
    | some new => if negated then none else next { cursor with groups := new.groups }
    | none => if negated then next cursor else none
  | .atomic body => Walk.first body.walk
  | .branch number present absent => fun cursor next =>
    if (cursor.groups.lookup number).isSome then present.walk cursor next
    else absent.walk cursor next

namespace Expr

/-- Whether an expression matches a text as a whole. -/
def matchesWhole (expr : Expr) (text : List Char) : Bool :=
  (expr.walk (.start text) fun cursor => if cursor.after.isEmpty then some cursor else none).isSome

/-- Whether an expression matches the front of a text. -/
def matchesStart (expr : Expr) (text : List Char) : Bool := (expr.walk (.start text) some).isSome

/-- Whether an expression matches somewhere from a place on. -/
def foundFrom (expr : Expr) (before : List Char) : List Char → Bool
  | [] => (expr.walk ⟨before, [], []⟩ some).isSome
  | c :: rest =>
    (expr.walk ⟨before, c :: rest, []⟩ some).isSome || expr.foundFrom (c :: before) rest

def foundIn (expr : Expr) (text : List Char) : Bool := expr.foundFrom [] text

end Expr

end TreeRules.Pattern
