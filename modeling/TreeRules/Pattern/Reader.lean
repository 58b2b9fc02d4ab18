import TreeRules.Pattern.Expr

/-! # Patterns as text

The reader of patterns. A backslash and the character after it are one token. A pattern that is not
well formed has no expression; why it is not is not told apart.
-/
namespace TreeRules.Pattern

/-- A unit of a pattern. -/
inductive Token where
  | plain (c : Char)
  | escaped (c : Char)
  deriving DecidableEq, Repr

/-- The tokens of a text; a backslash at its end belongs to none. -/
def tokens? : List Char → Option (List Token)
  | [] => some []
  | '\\' :: [] => none
  | '\\' :: c :: rest => (tokens? rest).map (.escaped c :: ·)
  | c :: rest => (tokens? rest).map (.plain c :: ·)

namespace Token

/-- The character of a plain token that passes a test. -/
def plain? (test : Char → Bool) : Token → Option Char
  | .plain c => if test c then some c else none
  | .escaped _ => none

def chars : Token → List Char
  | .plain c => [c]
  | .escaped c => ['\\', c]

end Token

/-- At most `n` plain characters that pass a test, and what follows them. -/
def takePlain (test : Char → Bool) : Nat → List Token → List Char × List Token
  | 0, tokens => ([], tokens)
  | _, [] => ([], [])
  | n + 1, token :: rest =>
    match token.plain? test with
    | some c => ((c :: (takePlain test n rest).1), (takePlain test n rest).2)
    | none => ([], token :: rest)

/-- The characters up to a plain one, and what follows it. -/
def takeUntil (stop : Char) : List Token → Option (List Char × List Token)
  | [] => none
  | token :: rest =>
    if token = .plain stop then some ([], rest)
    else (takeUntil stop rest).map fun (text, rest) => (token.chars ++ text, rest)

def isOctal (c : Char) : Bool := '0' ≤ c && c ≤ '7'

def isHex (c : Char) : Bool := c.isDigit || ('a' ≤ c && c ≤ 'f') || ('A' ≤ c && c ≤ 'F')

/-- The value of a digit in a base up to sixteen. -/
def digitValue (c : Char) : Nat :=
  if c.isDigit then c.toNat - 48 else if 'a' ≤ c then c.toNat - 87 else c.toNat - 55

def numeral (base : Nat) (digits : List Char) : Nat :=
  digits.foldl (fun total c => total * base + digitValue c) 0

/-- The character of a code point; a surrogate is none of a text and a number beyond the last code
point is an error. -/
def codePoint? (n : Nat) : Option (Option Char) :=
  if 0x10FFFF < n then none
  else if 0xD800 ≤ n ∧ n < 0xE000 then some none
  else some (some (Char.ofNat n))

/-- A code point given by exactly `size` hexadecimal digits. -/
def readHex (size : Nat) (tokens : List Token) : Option (Option Char × List Token) := do
  let (digits, rest) := takePlain isHex size tokens
  if digits.length = size then return (← codePoint? (numeral 16 digits), rest) else none

/-- Control characters that have a letter of their own. -/
def control? : Char → Option Char
  | 'a' => some (Char.ofNat 7)
  | 'f' => some (Char.ofNat 12)
  | 'n' => some '\n'
  | 'r' => some '\r'
  | 't' => some '\t'
  | 'v' => some (Char.ofNat 11)
  | _ => none

def category? : Char → Option Item
  | 'd' => some (.category .digit false)
  | 'D' => some (.category .digit true)
  | 's' => some (.category .blank false)
  | 'S' => some (.category .blank true)
  | 'w' => some (.category .word false)
  | 'W' => some (.category .word true)
  | _ => none

def edge? : Char → Option Edge
  | 'A' => some .textStart
  | 'b' => some .wordEdge
  | 'B' => some .notWordEdge
  | 'Z' => some .textEnd
  | _ => none

/-- The code point of an escape that means the same inside and outside of a class. -/
def readCode (c : Char) (rest : List Token) : Option (Option Char × List Token) :=
  match control? c with
  | some code => some (some code, rest)
  | none =>
    if c = 'x' then readHex 2 rest
    else if c = 'u' then readHex 4 rest
    else if c = 'U' then readHex 8 rest
    else if c.isAlphanum then none
    else some (some c, rest)

/-! ## Classes of characters -/

/-- An escape inside a class: a character, or a class by name. -/
def readClassEscape (c : Char) (rest : List Token) : Option ((Option Char ⊕ Item) × List Token) :=
  match category? c with
  | some item => some (.inr item, rest)
  | none =>
    if c = 'b' then some (.inl (some (Char.ofNat 8)), rest)
    else if isOctal c then
      let (digits, rest) := takePlain isOctal 2 rest
      let n := numeral 8 (c :: digits)
      if 0o377 < n then none else some (.inl (some (Char.ofNat n)), rest)
    else (readCode c rest).map fun (code, rest) => (.inl code, rest)

/-- A member of a class, or an end of a range. -/
def readMember : Token → List Token → Option ((Option Char ⊕ Item) × List Token)
  | .plain c, rest => some (.inl (some c), rest)
  | .escaped c, rest => readClassEscape c rest

/-- The item of a single member; a surrogate has none. -/
def memberItem : Option Char ⊕ Item → List Item
  | .inl (some c) => [.one c]
  | .inl none => []
  | .inr item => [item]

/-- The members of a class up to its closing bracket, within a bound on the number of steps. A
bracket that comes first stands for itself. -/
def readMembers : Nat → Bool → List Item → List Token → Option (List Item × List Token)
  | 0, _, _, _ => none
  | _, _, _, [] => none
  | steps + 1, fresh, items, token :: rest =>
    if token = .plain ']' ∧ !fresh then some (items, rest)
    else do
      let (first, rest) ← readMember token rest
      match rest with
      | .plain '-' :: .plain ']' :: rest => return (items ++ memberItem first ++ [.one '-'], rest)
      | .plain '-' :: last :: rest =>
        let (last, rest) ← readMember last rest
        match first, last with
        | .inl (some a), .inl (some b) =>
          if b < a then none else readMembers steps false (items ++ [.range a b]) rest
        | .inl _, .inl _ => readMembers steps false items rest
        | _, _ => none
      | rest => readMembers steps false (items ++ memberItem first) rest

def readSet (mode : Mode) (tokens : List Token) : Option (Expr × List Token) :=
  let (negated, body) := match tokens with
    | .plain '^' :: rest => (true, rest)
    | tokens => (false, tokens)
  (readMembers (body.length + 1) true [] body).map fun (items, rest) =>
    (.set mode negated items, rest)

/-! ## Rounds -/

/-- The numbers of rounds after an opening brace, if they are well formed. -/
def readCounts (tokens : List Token) : Option (Nat × Option Nat × List Token) :=
  let size := tokens.length
  let (low, rest) := takePlain Char.isDigit size tokens
  let (high, rest) := match rest with
    | .plain ',' :: rest => takePlain Char.isDigit size rest
    | rest => (low, rest)
  match tokens, rest with
  | .plain '}' :: _, _ => none
  | _, .plain '}' :: rest =>
    some (numeral 10 low, if high.isEmpty then none else some (numeral 10 high), rest)
  | _, _ => none

/-- The numbers of rounds that a mark asks for; an opening brace may stand for itself. -/
def readRounds (c : Char) (rest : List Token) : Option (Nat × Option Nat × List Token) :=
  match c with
  | '?' => some (0, some 1, rest)
  | '*' => some (0, none, rest)
  | '+' => some (1, none, rest)
  | _ => readCounts rest

/-- The order of preference after a number of rounds. -/
def readGreed : List Token → Greed × List Token
  | .plain '?' :: rest => (.lazy, rest)
  | .plain '+' :: rest => (.possessive, rest)
  | rest => (.greedy, rest)

/-! ## Switches -/

/-- A switch turned on or off by its letter. -/
def switch? (mode : Mode) (value : Bool) : Char → Option Mode
  | 'i' => some { mode with ignoreCase := value }
  | 'm' => some { mode with multiline := value }
  | 's' => some { mode with dotAll := value }
  | 'x' => some { mode with verbose := value }
  | _ => none

/-- A switch turned on by its letter. The two that choose an alphabet exclude each other. -/
def turnOn? (mode : Mode) (before : List Char) : Char → Option Mode
  | 'a' => if before.contains 'u' then none else some { mode with ascii := true }
  | 'u' => if before.contains 'a' then none else some { mode with ascii := false }
  | c => switch? mode true c

def turnOnAll? (mode : Mode) (before : List Char) : List Char → Option Mode
  | [] => some mode
  | c :: rest => do turnOnAll? (← turnOn? mode before c) (c :: before) rest

def turnOffAll? (mode : Mode) (letters : List Char) : Option Mode :=
  letters.foldlM (fun mode c => switch? mode false c) mode

def isSwitch (c : Char) : Bool := c.isAlpha

/-- What a list of switches is for. -/
inductive Switches where
  /-- The rest of the whole pattern. -/
  | forAll (mode : Mode)
  /-- One group. -/
  | forGroup (mode : Mode)

def readSwitches (mode : Mode) (tokens : List Token) : Option (Switches × List Token) := do
  let (on, rest) := takePlain isSwitch tokens.length tokens
  let raised ← turnOnAll? mode [] on
  match rest with
  | .plain ')' :: rest => if on.isEmpty then none else return (.forAll raised, rest)
  | .plain ':' :: rest => if on.isEmpty then none else return (.forGroup raised, rest)
  | .plain '-' :: rest =>
    let (off, rest) := takePlain isSwitch rest.length rest
    let lowered ← turnOffAll? raised off
    match rest with
    | .plain ':' :: rest =>
      if off.isEmpty || on.any off.contains then none else return (.forGroup lowered, rest)
    | _ => none
  | _ => none

/-! ## The reader -/

/-- What the reader knows of the groups of a pattern: how many there are, the widths of those that
are closed, their names, the groups there were when the outermost look-behind began, and the groups
that a choice asks for. -/
structure Groups where
  count : Nat := 1
  closed : List (Nat × Width) := []
  names : List (List Char × Nat) := []
  behind : Option Nat := none
  wanted : List Nat := []

namespace Groups

def isClosed (groups : Groups) (number : Nat) : Bool := (groups.closed.lookup number).isSome

/-- Whether a group may be referred to at a place: inside a look-behind, only if it was closed
before the look-behind began. -/
def visible (groups : Groups) (number : Nat) : Bool :=
  match groups.behind with
  | some count => groups.isClosed number && number < count
  | none => true

/-- A new group, under a name if it has one. -/
def start? (groups : Groups) (name : Option (List Char)) : Option Groups :=
  match name with
  | none => some { groups with count := groups.count + 1 }
  | some name =>
    if (groups.names.lookup name).isSome then none
    else some { groups with
      count := groups.count + 1, names := (name, groups.count) :: groups.names }

def close (groups : Groups) (number : Nat) (body : Expr) : Groups :=
  { groups with closed := (number, body.width groups.closed) :: groups.closed }

end Groups

/-- Whether a name can be given to a group. -/
def isName : List Char → Bool
  | [] => false
  | c :: rest => Word.isWord c && !Digit.isDigit c && rest.all Word.isWord

/-- What a part of a pattern is, for a loop that follows it. -/
inductive Kind where
  | edge
  | loop
  | other
  deriving DecidableEq

/-- A part of a pattern. -/
structure Piece where
  kind : Kind
  expr : Expr

/-- The parts of a sequence, last first, as one expression. -/
def joined (pieces : List Piece) : Expr := Expr.ofList (pieces.reverse.map Piece.expr)

/-- A reference to a group that is there and closed. -/
def reference? (mode : Mode) (groups : Groups) (number : Nat) : Option Piece :=
  if number < groups.count && groups.isClosed number && groups.visible number then
    some ⟨.other, .again mode number⟩
  else none

/-- An escape that starts with a digit other than zero: three octal digits are a character, anything
else a reference. -/
def readReference (mode : Mode) (groups : Groups) (c : Char) (rest : List Token) :
    Option (Piece × List Token) := do
  let (more, after) := takePlain Char.isDigit 1 rest
  let (third, last) := takePlain isOctal 1 after
  if isOctal c && more.any isOctal && !third.isEmpty then
    let n := numeral 8 (c :: more ++ third)
    if 0o377 < n then none else return (⟨.other, .char mode (Char.ofNat n)⟩, last)
  else return (← reference? mode groups (numeral 10 (c :: more)), after)

def readEscape (mode : Mode) (groups : Groups) (c : Char) (rest : List Token) :
    Option (Piece × List Token) :=
  match edge? c, category? c with
  | some edge, _ => some (⟨.edge, .edge mode edge⟩, rest)
  | none, some item => some (⟨.other, .set mode false [item]⟩, rest)
  | none, none =>
    if c = '0' then
      let (digits, rest) := takePlain isOctal 2 rest
      some (⟨.other, .char mode (Char.ofNat (numeral 8 digits))⟩, rest)
    else if c.isDigit then readReference mode groups c rest
    else (readCode c rest).map fun (code, rest) =>
      match code with
      | some code => (⟨.other, .char mode code⟩, rest)
      | none => (⟨.other, .set mode false []⟩, rest)

/-- A loop around the last part of a sequence. -/
def readLoop (pieces : List Piece) (least : Nat) (most : Option Nat) (rest : List Token) :
    Option (List Piece × List Token) :=
  match pieces with
  | ⟨.other, body⟩ :: pieces =>
    if most.any (· < least) then none
    else
      let (greed, rest) := readGreed rest
      some (⟨.loop, .loop greed least most body⟩ :: pieces, rest)
  | _ => none

/-- The rest of a comment of its own line. -/
def skipLine : List Token → List Token
  | [] => []
  | token :: rest => if token = .plain '\n' then rest else skipLine rest

/-- Whether a character is left out of a verbose pattern. -/
def isLayout (c : Char) : Bool := c.toNat == 32 || (9 ≤ c.toNat && c.toNat ≤ 13)

/-- A sequence as far as it has been read. -/
structure Progress where
  mode : Mode
  groups : Groups
  pieces : List Piece
  rest : List Token

/-- The number of a group that a choice asks for. -/
def choiceGroup? (groups : Groups) (name : List Char) : Option Nat :=
  if isName name then groups.names.lookup name
  else if name.all Char.isDigit && numeral 10 name != 0 then some (numeral 10 name)
  else none

mutual

/-- Alternatives up to a closing parenthesis or the end, within a bound on the number of steps. At
the top of a pattern, switches for the rest of it may stand in front. -/
def readAlternatives : Nat → Bool → Mode → Groups → List Token →
    Option (Expr × Groups × List Token)
  | 0, _, _, _, _ => none
  | steps + 1, top, mode, groups, tokens => do
    let read ← readSequence steps top ⟨mode, groups, [], tokens⟩
    match read.rest with
    | .plain '|' :: rest =>
      let (others, groups, rest) ← readLater steps read.mode read.groups rest
      return (.alt (joined read.pieces) others, groups, rest)
    | rest => return (joined read.pieces, read.groups, rest)

def readLater : Nat → Mode → Groups → List Token → Option (Expr × Groups × List Token)
  | 0, _, _, _ => none
  | steps + 1, mode, groups, tokens => do
    let read ← readSequence steps false ⟨mode, groups, [], tokens⟩
    match read.rest with
    | .plain '|' :: rest =>
      let (others, groups, rest) ← readLater steps mode read.groups rest
      return (.alt (joined read.pieces) others, groups, rest)
    | rest => return (joined read.pieces, read.groups, rest)

/-- A sequence up to a bar, a closing parenthesis or the end. -/
def readSequence : Nat → Bool → Progress → Option Progress
  | 0, _, _ => none
  | steps + 1, top, now =>
    match now.rest with
    | [] => some now
    | .escaped c :: rest =>
      match readEscape now.mode now.groups c rest with
      | some (piece, rest) =>
        readSequence steps top { now with pieces := piece :: now.pieces, rest := rest }
      | none => none
    | .plain c :: rest =>
      let push (expr : Expr) (kind : Kind) (rest : List Token) :=
        readSequence steps top { now with pieces := ⟨kind, expr⟩ :: now.pieces, rest := rest }
      if c = '|' ∨ c = ')' then some now
      else if now.mode.verbose ∧ isLayout c then readSequence steps top { now with rest := rest }
      else if now.mode.verbose ∧ c = '#' then
        readSequence steps top { now with rest := skipLine rest }
      else if c = '[' then
        match readSet now.mode rest with
        | some (expr, rest) => push expr .other rest
        | none => none
      else if c = '*' ∨ c = '+' ∨ c = '?' ∨ c = '{' then
        match readRounds c rest with
        | some (least, most, rest) =>
          match readLoop now.pieces least most rest with
          | some (pieces, rest) =>
            readSequence steps top { now with pieces := pieces, rest := rest }
          | none => none
        | none => push (.char now.mode c) .other rest
      else if c = '.' then push (.any now.mode) .other rest
      else if c = '^' then push (.edge now.mode .lineStart) .edge rest
      else if c = '$' then push (.edge now.mode .lineEnd) .edge rest
      else if c = '(' then
        match readGroup steps top { now with rest := rest } with
        | some now => readSequence steps top now
        | none => none
      else push (.char now.mode c) .other rest

def readGroup : Nat → Bool → Progress → Option Progress
  | 0, _, _ => none
  | steps + 1, top, now =>
    match now.rest with
    | .plain '?' :: .plain c :: rest =>
      if c = ':' then readBody steps { now with rest := rest } now.mode id
      else if c = '>' then readBody steps { now with rest := rest } now.mode .atomic
      else if c = '=' then readBody steps { now with rest := rest } now.mode (.ahead false)
      else if c = '!' then readBody steps { now with rest := rest } now.mode (.ahead true)
      else if c = '#' then
        (takeUntil ')' rest).map fun (_, rest) => { now with rest := rest }
      else if c = '<' then
        match rest with
        | .plain '=' :: rest => readBehind steps { now with rest := rest } false
        | .plain '!' :: rest => readBehind steps { now with rest := rest } true
        | _ => none
      else if c = 'P' then
        match rest with
        | .plain '<' :: rest => do
          let (name, rest) ← takeUntil '>' rest
          if isName name then readCapture steps { now with rest := rest } (some name) else none
        | .plain '=' :: rest => do
          let (name, rest) ← takeUntil ')' rest
          let piece ← reference? now.mode now.groups (← now.groups.names.lookup name)
          return { now with pieces := piece :: now.pieces, rest := rest }
        | _ => none
      else if c = '(' then do
        let (name, rest) ← takeUntil ')' rest
        let number ← choiceGroup? now.groups name
        if now.groups.visible number then readChoice steps { now with rest := rest } number
        else none
      else do
        let (switches, rest) ← readSwitches now.mode (.plain c :: rest)
        match switches with
        | .forAll mode =>
          if top && now.pieces.isEmpty then return { now with mode := mode, rest := rest } else none
        | .forGroup mode => readBody steps { now with rest := rest } mode id
    | .plain '?' :: _ => none
    | _ => readCapture steps now none

/-- The alternatives of a group that is not numbered, up to its closing parenthesis. -/
def readBody : Nat → Progress → Mode → (Expr → Expr) → Option Progress
  | 0, _, _, _ => none
  | steps + 1, now, mode, wrap => do
    let (body, groups, rest) ← readAlternatives steps false mode now.groups now.rest
    match rest with
    | .plain ')' :: rest =>
      return { now with groups, pieces := ⟨.other, wrap body⟩ :: now.pieces, rest }
    | _ => none

/-- The alternatives of a numbered group, up to its closing parenthesis. -/
def readCapture : Nat → Progress → Option (List Char) → Option Progress
  | 0, _, _ => none
  | steps + 1, now, name => do
    let number := now.groups.count
    let groups ← now.groups.start? name
    let (body, groups, rest) ← readAlternatives steps false now.mode groups now.rest
    match rest with
    | .plain ')' :: rest =>
      return { now with
        groups := groups.close number body
        pieces := ⟨.other, .group number body⟩ :: now.pieces
        rest := rest }
    | _ => none

/-- A look-behind, which has to have one width. -/
def readBehind : Nat → Progress → Bool → Option Progress
  | 0, _, _ => none
  | steps + 1, now, negated => do
    let outer := now.groups.behind
    let groups := { now.groups with behind := some (outer.getD now.groups.count) }
    let (body, groups, rest) ← readAlternatives steps false now.mode groups now.rest
    let groups := { groups with behind := outer }
    match rest, body.width groups.closed with
    | .plain ')' :: rest, (least, some most) =>
      if least = most then
        return { now with
          groups := groups
          pieces := ⟨.other, .behind negated least body⟩ :: now.pieces
          rest := rest }
      else none
    | _, _ => none

/-- The one or two sequences of a choice, up to its closing parenthesis. -/
def readChoice : Nat → Progress → Nat → Option Progress
  | 0, _, _ => none
  | steps + 1, now, number => do
    let groups := { now.groups with wanted := number :: now.groups.wanted }
    let present ← readSequence steps false ⟨now.mode, groups, [], now.rest⟩
    let absent ← match present.rest with
      | .plain '|' :: rest => readSequence steps false ⟨now.mode, present.groups, [], rest⟩
      | rest => some ⟨now.mode, present.groups, [], rest⟩
    match absent.rest with
    | .plain ')' :: rest =>
      let expr := .branch number (joined present.pieces) (joined absent.pieces)
      return { now with
        groups := absent.groups, pieces := ⟨.other, expr⟩ :: now.pieces, rest := rest }
    | _ => none

end

def Expr.read? (text : List Char) : Option Expr := do
  let tokens ← tokens? text
  match readAlternatives (4 * tokens.length + 4) true {} {} tokens with
  | some (expr, groups, []) => if groups.wanted.all (· < groups.count) then some expr else none
  | _ => none

end TreeRules.Pattern
