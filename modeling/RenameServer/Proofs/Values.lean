import RenameServer.Json.Basic

/-!
Whether two JSON values are one and the same can be decided. This is finer than
equality by value: 1 and 1.0 differ, and so do objects whose fields stand in
another order.
-/
namespace RenameServer.Json

mutual

/-- Are two values the same in every detail? -/
def identical : Json → Json → Bool
  | .null, .null => true
  | .bool a, .bool b => a = b
  | .int m, .int n => m = n
  | .float x, .float y => x = y
  | .str s, .str t => s = t
  | .ragged r, .ragged q => r = q
  | .arr xs, .arr ys => identicalItems xs ys
  | .obj fs, .obj gs => identicalFields fs gs
  | _, _ => false

def identicalItems : List Json → List Json → Bool
  | [], [] => true
  | x :: xs, y :: ys => identical x y && identicalItems xs ys
  | _, _ => false

def identicalFields : List (Str × Json) → List (Str × Json) → Bool
  | [], [] => true
  | (key, x) :: fs, (key', y) :: gs => key = key' && identical x y && identicalFields fs gs
  | _, _ => false

end

mutual

theorem eq_of_identical {a b : Json} (h : identical a b = true) : a = b := by
  cases a <;> cases b <;> simp only [identical, decide_eq_true_eq, Bool.false_eq_true] at h
  · rfl
  · rw [h]
  · rw [h]
  · rw [h]
  · rw [h]
  · rw [h]
  · rw [eq_of_identicalItems h]
  · rw [eq_of_identicalFields h]

theorem eq_of_identicalItems {xs ys : List Json} (h : identicalItems xs ys = true) : xs = ys := by
  cases xs <;> cases ys <;> simp only [identicalItems, Bool.and_eq_true, Bool.false_eq_true] at h
  · rfl
  · rw [eq_of_identical h.1, eq_of_identicalItems h.2]

theorem eq_of_identicalFields {fs gs : List (Str × Json)} (h : identicalFields fs gs = true) :
    fs = gs := by
  match fs, gs with
  | [], [] => rfl
  | (key, x) :: fs, (key', y) :: gs =>
    simp only [identicalFields, Bool.and_eq_true, decide_eq_true_eq] at h
    rw [h.1.1, eq_of_identical h.1.2, eq_of_identicalFields h.2]

end

mutual

theorem identical_self (a : Json) : identical a a = true := by
  cases a with
  | arr items => exact identicalItems_self items
  | obj fields => exact identicalFields_self fields
  | _ => simp [identical]

theorem identicalItems_self (items : List Json) : identicalItems items items = true := by
  match items with
  | [] => rfl
  | x :: rest => rw [identicalItems, identical_self x, identicalItems_self rest]; rfl

theorem identicalFields_self (fields : List (Str × Json)) :
    identicalFields fields fields = true := by
  match fields with
  | [] => rfl
  | (key, x) :: rest =>
    simp [identicalFields, identical_self x, identicalFields_self rest]

end

instance : DecidableEq Json := fun a b =>
  decidable_of_iff (identical a b = true) ⟨eq_of_identical, fun h => h ▸ identical_self a⟩

end RenameServer.Json
