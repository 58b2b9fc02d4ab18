/-! # Names of files

A path is shown without the parts that lead nowhere: empty parts and single dots. The suffix of a
path starts at the last dot of its last part, unless that dot is the first or the last character.
-/
namespace TreeRules.FileName

/-- The slashes with which a path starts: none, one, or exactly two. -/
def root (path : List Char) : String :=
  match (path.takeWhile (· == '/')).length with
  | 0 => ""
  | 2 => "//"
  | _ => "/"

/-- The parts of a path that lead somewhere. -/
def parts (path : List Char) : List (List Char) :=
  (path.splitOn '/').filter fun part => !part.isEmpty && part != ['.']

/-- A path as it is shown; the empty one is the current folder. -/
def shown (path : String) : String :=
  let chars := path.toList
  let text := root chars ++ "/".intercalate ((parts chars).map String.ofList)
  if text = "" then "." else text

/-- The suffix of a path; empty if there is none. -/
def suffix (path : String) : String :=
  let name := ((parts path.toList).getLast?).getD []
  let after := (name.reverse.takeWhile (· != '.')).length
  if after = 0 ∨ name.length ≤ after + 1 then ""
  else String.ofList (name.drop (name.length - after - 1))

def isIn (folder path : String) : Bool := (folder.toList ++ ['/']).isPrefixOf path.toList

end TreeRules.FileName
