/-! # Binary floating-point numbers

The finite numbers are integers times powers of two with at most 53 significant bits; a decimal
number is rounded to the nearest of them, a tie to the even one. A number is written with the fewest
digits that read back as it.
-/
namespace TreeRules

/-- A floating-point number: `mantissa * 2 ^ exponent` with a sign, or an infinity. -/
inductive Real64 where
  | finite (negative : Bool) (mantissa : Nat) (exponent : Int)
  | infinite (negative : Bool)
  deriving DecidableEq, Repr, Inhabited

namespace Real64

def leastExponent : Int := -1074

/-- A positive rational with a power of a base multiplied in. -/
def scale (base num den : Nat) (power : Int) : Nat × Nat :=
  if 0 ≤ power then (num * base.pow power.toNat, den) else (num, den * base.pow (-power).toNat)

/-- A quotient rounded to the nearest integer, a tie to the even one. -/
def roundDiv (num den : Nat) : Nat :=
  let quotient := num / den
  let rest := num % den
  if den < 2 * rest ∨ (2 * rest = den ∧ quotient % 2 = 1) then quotient + 1 else quotient

/-- The positive rational `num / den` rounded to 53 significant bits. -/
def ofRatio (negative : Bool) (num den : Nat) : Real64 :=
  let guess : Int := (Nat.log2 num : Int) - Nat.log2 den - 52
  let (n, d) := scale 2 num den (-guess)
  let exponent := max leastExponent (if n / d < Nat.pow 2 52 then guess - 1 else guess)
  let (n, d) := scale 2 num den (-exponent)
  let mantissa := roundDiv n d
  let (mantissa, exponent) :=
    if mantissa = Nat.pow 2 53 then (Nat.pow 2 52, exponent + 1) else (mantissa, exponent)
  if 971 < exponent then .infinite negative else .finite negative mantissa exponent

/-- The number nearest to `digits * 10 ^ power`. -/
def ofDecimal (negative : Bool) (digits : Nat) (power : Int) : Real64 :=
  let places : Int := (Nat.toDigits 10 digits).length
  if digits = 0 ∨ places + power < -400 then .finite negative 0 leastExponent
  else if 400 < places + power then .infinite negative
  else
    let (num, den) := scale 10 digits 1 power
    ofRatio negative num den

/-- Whether a number is one of the two zeros. -/
def isZero : Real64 → Bool
  | .finite _ 0 _ => true
  | _ => false

/-- The integer next to a finite number on the way to zero. -/
def truncate? : Real64 → Option Int
  | .finite negative mantissa exponent =>
    let (n, d) := scale 2 mantissa 1 exponent
    some (if negative then -(n / d : Nat) else (n / d : Nat))
  | .infinite _ => none

/-- The integer a number is equal to, if it is one. -/
def integer? : Real64 → Option Int
  | .finite negative mantissa exponent =>
    let (n, d) := scale 2 mantissa 1 exponent
    if n % d = 0 then some (if negative then -(n / d : Nat) else (n / d : Nat)) else none
  | .infinite _ => none

/-- Whether two numbers are equal; the two zeros are. -/
def equal (x y : Real64) : Bool := x == y || (x.isZero && y.isZero)

/-- The decimal exponent of the positive rational `num / den`. -/
def decade (num den : Nat) : Int :=
  let guess : Int := ((Nat.toDigits 10 num).length : Int) - (Nat.toDigits 10 den).length
  let (n, d) := scale 10 num den (-guess)
  if n < d then guess - 1 else guess

/-- The decimals of `places` digits next to `num / den`, from below and from above, that lie
between `low / den` and `high / den`. -/
def neighbours (num low high den : Nat) (closed : Bool) (power : Int) : List Nat :=
  let (n, d) := scale 10 num den (-power)
  let (l, _) := scale 10 low den (-power)
  let (h, _) := scale 10 high den (-power)
  [n / d, n / d + 1].filter fun x =>
    if closed then l ≤ x * d && x * d ≤ h else l < x * d && x * d < h

/-- Of the candidates below and above `num / den`, the nearer one; the even one of two as near. -/
def nearest (num den : Nat) (power : Int) : List Nat → Option Nat
  | [x, y] =>
    let (n, d) := scale 10 num den (-power)
    let below := n - x * d
    let above := y * d - n
    some (if below < above ∨ (below = above ∧ x % 2 = 0) then x else y)
  | candidates => candidates.head?

/-- The fewest digits that read back as `mantissa * 2 ^ exponent`, and the power of ten of the last
of them. -/
def shortest (mantissa : Nat) (exponent : Int) : Nat × Int :=
  let step := if mantissa = Nat.pow 2 52 ∧ leastExponent < exponent then 1 else 2
  let (num, den) := scale 2 (4 * mantissa) 1 (exponent - 2)
  let (low, _) := scale 2 (4 * mantissa - step) 1 (exponent - 2)
  let (high, _) := scale 2 (4 * mantissa + 2) 1 (exponent - 2)
  let tens := decade num den
  let found := (List.range 17).findSome? fun (places : Nat) =>
    let power := tens - places
    (nearest num den power (neighbours num low high den (mantissa % 2 == 0) power)).map (·, power)
  found.getD (0, 0)

/-- A number written with its digits and the power of ten of the last of them: positional from
`0.0001` up to sixteen digits before the point, with an exponent otherwise. -/
def layout (digits : List Char) (power : Int) : String :=
  let kept := (digits.reverse.dropWhile (· == '0')).reverse
  let tens := power + digits.length - 1
  if -4 ≤ tens ∧ tens < 16 then
    if tens < 0 then
      String.ofList (['0', '.'] ++ List.replicate (-tens - 1).toNat '0' ++ kept)
    else
      let whole := kept.take (tens.toNat + 1)
      let fraction := kept.drop (tens.toNat + 1)
      String.ofList (whole ++ List.replicate (tens.toNat + 1 - whole.length) '0' ++ ['.'] ++
        (if fraction.isEmpty then ['0'] else fraction))
  else
    let size := Nat.toDigits 10 tens.natAbs
    String.ofList (kept.take 1 ++ (if kept.length ≤ 1 then [] else '.' :: kept.drop 1) ++
      ['e', if tens < 0 then '-' else '+'] ++ List.replicate (2 - size.length) '0' ++ size)

/-- A number with the fewest digits that read back as it. -/
def shown : Real64 → String
  | .infinite negative => if negative then "-inf" else "inf"
  | .finite negative mantissa exponent =>
    let body :=
      if mantissa = 0 then "0.0"
      else
        let (digits, power) := shortest mantissa exponent
        layout (Nat.toDigits 10 digits) power
    if negative then "-" ++ body else body

end Real64

end TreeRules
