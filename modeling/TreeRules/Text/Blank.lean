/-! # White space

The white-space characters of the Unicode standard, alone and together with the four ASCII
separators, and the trimming of texts.
-/
namespace TreeRules.Blank

/-- White space in the sense of the Unicode standard. It may stand around numbers. -/
def isSpace (c : Char) : Bool :=
  let n := c.toNat
  (9 ≤ n && n ≤ 13) || n == 32 || n == 0x85 || n == 0xA0 || n == 0x1680 ||
    (0x2000 ≤ n && n ≤ 0x200A) || n == 0x2028 || n == 0x2029 || n == 0x202F || n == 0x205F ||
    n == 0x3000

/-- White space and separators: what the class of blanks in a pattern accepts. -/
def isBlank (c : Char) : Bool := isSpace c || (28 ≤ c.toNat && c.toNat ≤ 31)

/-- A text without the characters of some kind at its two ends. -/
def trimOf (kind : Char → Bool) (text : List Char) : List Char :=
  ((text.dropWhile kind).reverse.dropWhile kind).reverse

/-- A text without the blanks at its two ends. -/
def trimChars (text : List Char) : List Char := trimOf isBlank text

/-- A text without the white space at its two ends. -/
def trimSpace (text : List Char) : List Char := trimOf isSpace text

/-- The bytes that count as white space when a source is looked at as a whole. -/
def isBlankByte (byte : UInt8) : Bool := byte == 32 || (9 ≤ byte && byte ≤ 13)

/-- The bytes that may stand in front of the first character of a line. -/
def isMargin (byte : UInt8) : Bool := byte == 32 || byte == 9 || byte == 13 || byte == 12

end TreeRules.Blank
