/-! # Markup in messages

Text for the console can hold tags: a bracket, a small letter or one of three signs, and anything
but an opening bracket up to the closing one. Tags are not printed. A backslash in front of a bracket is
not printed either and keeps the tag; two of them stand for one.
-/
namespace TreeRules.Markup

def startsTag (c : Char) : Bool := c.isLower || c == '#' || c == '/' || c == '@'

/-- The length of the rest of a tag after its opening bracket, if it is one. -/
def tagLength? (rest : List Char) : Option Nat :=
  let body := rest.takeWhile fun c => c != '[' && c != ']'
  if body.head?.any startsTag && rest[body.length]? == some ']' then some (body.length + 1)
  else none

/-- The printed text after some backslashes, with some characters left out first. -/
def plainFrom (slashes left : Nat) : List Char → List Char
  | [] => List.replicate slashes '\\'
  | c :: rest =>
    match left with
    | left + 1 => plainFrom slashes left rest
    | 0 =>
      if c = '\\' then plainFrom (slashes + 1) 0 rest
      else if c = '[' then
        match tagLength? rest with
        | some length =>
          List.replicate (slashes / 2) '\\' ++
            if slashes % 2 = 0 then plainFrom 0 length rest else '[' :: plainFrom 0 0 rest
        | none => List.replicate (slashes - 1) '\\' ++ '[' :: plainFrom 0 0 rest
      else List.replicate slashes '\\' ++ c :: plainFrom 0 0 rest

/-- The text that is printed for a text with tags. -/
def plain (text : String) : String := String.ofList (plainFrom 0 0 text.toList)

/-- A text between an opening and a closing tag. -/
def tagged (tag text : String) : String := "[" ++ tag ++ "]" ++ text ++ "[/" ++ tag ++ "]"

end TreeRules.Markup
