/-!
Binary floating point numbers of 64 bits, kept as exact integers. A finite
number is `mantissa * 2 ^ exponent` with a mantissa below `2 ^ 53` and an
exponent of at least -1074, in the form with the largest mantissa. Decimal text
is rounded to the nearest such number, a tie to the even mantissa.
-/
namespace RenameServer

inductive Binary64 where
  | finite (negative : Bool) (mantissa : Nat) (exponent : Int)
  | infinite (negative : Bool)
  | nan
  deriving Repr, DecidableEq

namespace Binary64

def zero (negative : Bool) : Binary64 := .finite negative 0 (-1074)

/-- The quotient nearest to `num / den`; a tie goes to the even one. -/
def roundQuotient (num den : Nat) : Nat :=
  let q := num / den
  let r := num % den
  if 2 * r < den then q
  else if den < 2 * r then q + 1
  else if q % 2 = 0 then q else q + 1

/-- `num / den` scaled by `2 ^ (-e)`, as a fraction. -/
def scaled (num den : Nat) (e : Int) : Nat × Nat :=
  if 0 ≤ e then (num, den * Nat.pow 2 e.toNat) else (num * Nat.pow 2 (-e).toNat, den)

/-- The number nearest to the positive fraction `num / den`. -/
def ofFraction (negative : Bool) (num den : Nat) : Binary64 :=
  let guess : Int := (Nat.log2 num : Int) - (Nat.log2 den : Int) - 52
  let fits := scaled num den guess
  let e := max (if fits.1 < Nat.pow 2 52 * fits.2 then guess - 1 else guess) (-1074)
  let f := scaled num den e
  let m := roundQuotient f.1 f.2
  let result := if m = Nat.pow 2 53 then (Nat.pow 2 52, e + 1) else (m, e)
  if 971 < result.2 then .infinite negative else .finite negative result.1 result.2

/-- The number nearest to `digits * 10 ^ exponent`. Magnitudes far outside the
range are settled by their number of digits. -/
def ofDecimal (negative : Bool) (digits : Nat) (exponent : Int) : Binary64 :=
  let magnitude : Int := (Nat.toDigits 10 digits).length + exponent
  if digits = 0 ∨ magnitude < -330 then zero negative
  else if 310 < magnitude then .infinite negative
  else if 0 ≤ exponent then ofFraction negative (digits * Nat.pow 10 exponent.toNat) 1
  else ofFraction negative digits (Nat.pow 10 (-exponent).toNat)

/-- The value of a finite number without its sign, as a fraction. -/
def fraction (mantissa : Nat) (exponent : Int) : Nat × Nat :=
  if 0 ≤ exponent then (mantissa * Nat.pow 2 exponent.toNat, 1)
  else (mantissa, Nat.pow 2 (-exponent).toNat)

/-- The integer part, toward zero; none for the numbers that are not finite. -/
def truncate? : Binary64 → Option Int
  | .finite negative m e =>
    let f := fraction m e
    let n : Int := (f.1 / f.2 : Nat)
    some (if negative then -n else n)
  | _ => none

/-- The integer that a number equals, if it equals one. -/
def toInt? : Binary64 → Option Int
  | .finite negative m e =>
    let f := fraction m e
    if f.1 % f.2 = 0 then
      let n : Int := (f.1 / f.2 : Nat)
      some (if negative then -n else n)
    else none
  | _ => none

/-- Equality of numbers: zeros of both signs are equal, a NaN equals nothing. -/
def same : Binary64 → Binary64 → Bool
  | .nan, _ | _, .nan => false
  | .finite s m e, .finite s' m' e' => (m = 0 ∧ m' = 0) ∨ (s = s' ∧ m = m' ∧ e = e')
  | x, y => x = y

def isZero : Binary64 → Bool
  | .finite _ m _ => m = 0
  | _ => false

end Binary64

end RenameServer
