import RenameServer.Json.Basic

/-!
JSON values as keys. Numbers of different kinds are one key if they are one
number, and NaN is a key like any other. Arrays and objects are no keys.
-/
namespace RenameServer.Json

inductive Key where
  | null
  | number (numerator : Int) (denominator : Nat)
  | infinite (negative : Bool)
  | nan
  | text (value : String)
  | ragged (value : Ragged)
  deriving Repr, DecidableEq

/-- The key of a finite number: its fraction in lowest terms. -/
def Key.ofFraction (negative : Bool) (f : Nat × Nat) : Key :=
  let common := Nat.gcd f.1 f.2
  let n : Int := (f.1 / common : Nat)
  .number (if negative then -n else n) (f.2 / common)

def key? : Json → Option Key
  | .null => some .null
  | .bool b => some (.number (if b then 1 else 0) 1)
  | .int n => some (.number n 1)
  | .float (.finite negative m e) => some (.ofFraction negative (Binary64.fraction m e))
  | .float (.infinite negative) => some (.infinite negative)
  | .float .nan => some .nan
  | .str s => some (.text s)
  | .ragged r => some (.ragged r)
  | .arr _ | .obj _ => none

/-- Are two values the same key? -/
def sameKey (x y : Json) : Bool := x.key? = y.key?

theorem sameKey_iff {x y : Json} : x.sameKey y = true ↔ x.key? = y.key? := decide_eq_true_iff

/-- A string is the same key as itself only. -/
theorem key?_eq_text {x : Json} {u : String} : x.key? = some (.text u) ↔ x = .str u := by
  cases x with
  | float value => cases value <;> simp [key?, Key.ofFraction]
  | _ => simp [key?]

theorem sameKey_str {x : Json} {u : String} : x.sameKey (.str u) = true ↔ x = .str u :=
  sameKey_iff.trans key?_eq_text

theorem str_sameKey {x : Json} {u : String} : (Json.str u).sameKey x = true ↔ x = .str u := by
  rw [sameKey_iff, eq_comm]
  exact key?_eq_text

end RenameServer.Json
