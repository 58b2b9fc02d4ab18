import TreeRules.Text.Quoted
import TreeRules.Value.Basic

/-! # Values written as JSON

Only ASCII is written: other characters become escapes, a character beyond the first plane a pair
of them. On one line, items are separated by a comma and a space; spread out, each item stands on
a line of its own, two columns further in than its list.
-/
namespace TreeRules.Value

def unitEscape (n : Nat) : List Char := ['\\', 'u'] ++ Quoted.hex 4 n

def escapeChar (c : Char) : List Char :=
  if c = '"' ∨ c = '\\' then ['\\', c]
  else if c = '\n' then ['\\', 'n']
  else if c = '\r' then ['\\', 'r']
  else if c = '\t' then ['\\', 't']
  else if c.toNat = 8 then ['\\', 'b']
  else if c.toNat = 12 then ['\\', 'f']
  else if 32 ≤ c.toNat ∧ c.toNat < 127 then [c]
  else if c.toNat < 0x10000 then unitEscape c.toNat
  else
    let rest := c.toNat - 0x10000
    unitEscape (0xD800 + rest / 0x400) ++ unitEscape (0xDC00 + rest % 0x400)

def writeText (text : String) : String :=
  String.ofList ('"' :: text.toList.flatMap escapeChar ++ ['"'])

/-- Items between two brackets: on one line when there is no depth, each on its own line at a
depth. -/
def enclose (depth : Option Nat) (opening closing : String) (items : List String) : String :=
  if items.isEmpty then opening ++ closing
  else match depth with
    | none => opening ++ ", ".intercalate items ++ closing
    | some depth =>
      let margin (n : Nat) := "\n" ++ String.ofList (List.replicate (2 * n) ' ')
      opening ++ margin (depth + 1) ++ ("," ++ margin (depth + 1)).intercalate items ++
        margin depth ++ closing

mutual

/-- A value as JSON, spread out from a depth or on one line. -/
def writeAt (depth : Option Nat) : Value → String
  | .null => "null"
  | .bool flag => if flag then "true" else "false"
  | .int number => toString number
  | .real number => number.shown
  | .text content => writeText content
  | .list items => enclose depth "[" "]" (writeItems (depth.map (· + 1)) items)
  | .mapping entries => enclose depth "\x7b" "\x7d" (writeEntries (depth.map (· + 1)) entries)

def writeItems (depth : Option Nat) : List Value → List String
  | [] => []
  | item :: rest => writeAt depth item :: writeItems depth rest

def writeEntries (depth : Option Nat) : List (String × Value) → List String
  | [] => []
  | (key, value) :: rest =>
    (writeText key ++ ": " ++ writeAt depth value) :: writeEntries depth rest

end

def write (spread : Bool) (value : Value) : String :=
  value.writeAt (if spread then some 0 else none)

end TreeRules.Value
