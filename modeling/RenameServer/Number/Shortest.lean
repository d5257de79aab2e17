import RenameServer.Number.Binary64

/-!
Decimal text of a binary floating point number: the fewest digits that read
back as the same number and, among those, the ones nearest to it. Exponents
from -4 to 15 are written positionally, always with a point; the others with
a signed exponent of at least two digits.
-/
namespace RenameServer.Binary64

/-- The reals that round to `mantissa * 2 ^ exponent` are those between the two
ends, as multiples of `2 ^ (exponent - 2)`; the ends belong to them when the
mantissa is even. -/
structure Interval where
  low : Nat
  high : Nat
  closed : Bool

def interval (mantissa : Nat) (exponent : Int) : Interval :=
  { low := 4 * mantissa - (if mantissa = Nat.pow 2 52 ∧ -1074 < exponent then 1 else 2)
    high := 4 * mantissa + 2
    closed := mantissa % 2 = 0 }

/-- Does the fraction `num / den` lie in the interval, in units of `unit.1 / unit.2`? -/
def Interval.contains (i : Interval) (unit : Nat × Nat) (num den : Nat) : Bool :=
  let x := num * unit.2
  let low := i.low * unit.1 * den
  let high := i.high * unit.1 * den
  if i.closed then low ≤ x ∧ x ≤ high else low < x ∧ x < high

/-- A decimal `digits * 10 ^ power`. -/
structure Decimal where
  digits : Nat
  power : Int

def Decimal.fraction (d : Decimal) : Nat × Nat :=
  if 0 ≤ d.power then (d.digits * Nat.pow 10 d.power.toNat, 1)
  else (d.digits, Nat.pow 10 (-d.power).toNat)

/-- The number of decimal digits before the point; zero or less below one. -/
def pointAfter (value : Nat × Nat) : Int :=
  ((Nat.toDigits 10 (value.1 * Nat.pow 10 400 / value.2)).length : Int) - 400

/-- The neighbour of `value` on the grid of multiples of `10 ^ power` that lies
in the interval; of two, the nearer, of two as near, the even one. -/
def onGrid? (i : Interval) (unit value : Nat × Nat) (power : Int) : Option Decimal :=
  let grid := Decimal.fraction ⟨1, power⟩
  let below := value.1 * grid.2 / (value.2 * grid.1)
  let inside (n : Nat) : Bool :=
    let f := Decimal.fraction ⟨n, power⟩
    i.contains unit f.1 f.2
  let twice := 2 * value.1 * grid.2
  let middle := (2 * below + 1) * value.2 * grid.1
  match inside below && below ≠ 0, inside (below + 1) with
  | false, false => none
  | true, false => some ⟨below, power⟩
  | false, true => some ⟨below + 1, power⟩
  | true, true =>
    if twice < middle ∨ (twice = middle ∧ below % 2 = 0) then some ⟨below, power⟩
    else some ⟨below + 1, power⟩

/-- Try grids of one digit, two digits, and so on. -/
def search (i : Interval) (unit value : Nat × Nat) (point : Int) : List Nat → Decimal
  | [] => ⟨0, 0⟩
  | count :: more =>
    match onGrid? i unit value (point - count) with
    | some d => d
    | none => search i unit value point more

def shortest (mantissa : Nat) (exponent : Int) : Decimal :=
  let value := fraction mantissa exponent
  search (interval mantissa exponent) (fraction 1 (exponent - 2)) value (pointAfter value)
    (List.range' 1 17)

/-- Digits without trailing zeros, and the place of the point after the first of them. -/
def significant (d : Decimal) : List Char × Int :=
  let all := Nat.toDigits 10 d.digits
  let kept := (all.reverse.dropWhile (· = '0')).reverse
  (kept, (all.length : Int) + d.power)

def exponentText (e : Int) : String :=
  let digits := Nat.toDigits 10 e.natAbs
  let padded := if digits.length < 2 then '0' :: digits else digits
  (if e < 0 then "e-" else "e+") ++ String.ofList padded

/-- Lay digits out around the point. -/
def layout (digits : List Char) (point : Int) : String :=
  let e := point - 1
  if e < -4 ∨ 16 ≤ e then
    match digits with
    | [] => ""
    | [d] => String.ofList [d] ++ exponentText e
    | d :: more => String.ofList (d :: '.' :: more) ++ exponentText e
  else if point ≤ 0 then
    "0." ++ String.ofList (List.replicate (-point).toNat '0' ++ digits)
  else if digits.length ≤ point.toNat then
    String.ofList (digits ++ List.replicate (point.toNat - digits.length) '0') ++ ".0"
  else
    String.ofList (digits.take point.toNat ++ '.' :: digits.drop point.toNat)

/-- The text of a number; the caller names what is not finite. -/
def text (infinity nan : String) : Binary64 → String
  | .nan => nan
  | .infinite negative => if negative then "-" ++ infinity else infinity
  | .finite negative m e =>
    let magnitude :=
      if m = 0 then "0.0"
      else
        let s := significant (shortest m e)
        layout s.1 s.2
    if negative then "-" ++ magnitude else magnitude

end RenameServer.Binary64
