/-! # Command-line arguments

Options start with dashes. A long option takes its value from behind an equals sign or from the next
argument; an option of one letter takes the rest of its argument, or the next argument. Two dashes
alone end the options. What is left are the plain arguments.
-/
namespace TreeRules.Arguments

/-- The options that are understood: those with a value, those of one letter with the long option
they stand for, and those without a value. -/
structure Known where
  valued : List String := []
  letters : List (Char × String) := []
  flags : List String := []

/-- Options in the order in which they are given, with their values, and plain arguments. -/
structure Scanned where
  options : List (String × String) := []
  plain : List String := []

namespace Scanned

def withOption (name value : String) (scanned : Scanned) : Scanned :=
  { scanned with options := (name, value) :: scanned.options }

def withPlain (argument : String) (scanned : Scanned) : Scanned :=
  { scanned with plain := argument :: scanned.plain }

/-- The value of an option: the last one that is given. -/
def value? (scanned : Scanned) (name : String) : Option String :=
  (scanned.options.filter (·.1 == name)).getLast?.map Prod.snd

def values (scanned : Scanned) (name : String) : List String :=
  (scanned.options.filter (·.1 == name)).map Prod.snd

def has (scanned : Scanned) (name : String) : Bool := scanned.options.any (·.1 == name)

end Scanned

/-- What an argument turns out to be. -/
inductive Kind where
  | plain
  | endOfOptions
  | flag (name : String)
  | option (name value : String)
  | optionBeforeValue (name : String)
  | unknown
  deriving DecidableEq, Repr

/-- What a long option is, from its name and what stands behind the equals sign. -/
def kindOfLong (known : Known) (name : String) (value : Option String) : Kind :=
  match value with
  | some value => if known.valued.contains name then .option name value else .unknown
  | none =>
    if known.valued.contains name then .optionBeforeValue name
    else if known.flags.contains name then .flag name
    else .unknown

def kindOf (known : Known) (argument : String) : Kind :=
  match argument.toList with
  | ['-', '-'] => .endOfOptions
  | '-' :: '-' :: rest =>
    let name := "--" ++ String.ofList (rest.takeWhile (· != '='))
    match rest.dropWhile (· != '=') with
    | _ :: value => kindOfLong known name (some (String.ofList value))
    | [] => kindOfLong known name none
  | '-' :: letter :: rest =>
    match known.letters.lookup letter with
    | some name =>
      if rest.isEmpty then .optionBeforeValue name else .option name (String.ofList rest)
    | none => .unknown
  | _ => .plain

/-- Reads arguments. Options can stand between plain arguments if they are `mixed`; else the first
plain argument ends them. -/
def scan (known : Known) (mixed : Bool) : List String → Option Scanned
  | [] => some {}
  | argument :: rest =>
    match kindOf known argument with
    | .unknown => none
    | .endOfOptions => some { plain := rest }
    | .flag name => (scan known mixed rest).map (·.withOption name "")
    | .option name value => (scan known mixed rest).map (·.withOption name value)
    | .optionBeforeValue name =>
      match rest with
      | [] => none
      | value :: rest => (scan known mixed rest).map (·.withOption name value)
    | .plain =>
      if mixed then (scan known mixed rest).map (·.withPlain argument)
      else some { plain := argument :: rest }

end TreeRules.Arguments
