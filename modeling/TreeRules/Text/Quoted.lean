import TreeRules.Text.Printable

/-! # Quoted texts

A text in quotes, as messages show it. Single quotes are used unless the text has a single quote
and no double quote; the quote in use, the backslash and the characters that are not printable are
escaped.
-/
namespace TreeRules.Quoted

/-- The digits of a number in base sixteen, padded with zeros. -/
def hex (width n : Nat) : List Char :=
  let digits := Nat.toDigits 16 n
  List.replicate (width - digits.length) '0' ++ digits

def mark (text : List Char) : Char :=
  if text.contains (Char.ofNat 39) && !text.contains '"' then '"' else Char.ofNat 39

def escape (quote c : Char) : List Char :=
  if c = quote ∨ c = '\\' then ['\\', c]
  else if c = '\t' then ['\\', 't']
  else if c = '\n' then ['\\', 'n']
  else if c = '\r' then ['\\', 'r']
  else if Printable.isPrintable c then [c]
  else if c.toNat < 0x100 then ['\\', 'x'] ++ hex 2 c.toNat
  else if c.toNat < 0x10000 then ['\\', 'u'] ++ hex 4 c.toNat
  else ['\\', 'U'] ++ hex 8 c.toNat

def quote (text : String) : String :=
  let chars := text.toList
  String.ofList (mark chars :: chars.flatMap (escape (mark chars)) ++ [mark chars])

end TreeRules.Quoted
