import RenameServer.Proofs.Headers
import RenameServer.Proofs.Writing

/-!
Strings and numbers are read back from what is written for them. A string is
taken through its escapes one character at a time; a number ends where nothing
follows that could extend it, and comes back if it has no more digits than an
integer may be written with.
-/
namespace RenameServer.Json

/-! ### Strings -/

theorem hexFour?_hexDigits {n : Nat} (h : n < 0x20) :
    ∃ a b c d, Text.hexDigits n 4 = [a, b, c, d] ∧ hexFour? a b c d = some n := by
  refine ⟨'0', '0', Text.hexDigit (n / 16), Text.hexDigit (n % 16), ?_, ?_⟩ <;> decide +revert

/-- An escaped character is read as the unit of that character. -/
theorem readUnits_escapeChar (opening : Nat) (c : Char) {rest : List Char} (hrest : rest ≠ []) :
    readUnits opening (escapeChar c ++ rest) =
      (readUnits opening rest).map fun (us, r) => (c.toNat :: us, r) := by
  rw [escapeChar]
  split
  · next h => subst h; rfl
  split
  · next h => subst h; rfl
  split
  · next h => subst h; rfl
  split
  · next h => subst h; rfl
  split
  · next h => subst h; rfl
  split
  · next h => obtain rfl : c = Char.ofNat 8 := Char.toNat_inj.mp h; rfl
  split
  · next h => obtain rfl : c = Char.ofNat 12 := Char.toNat_inj.mp h; rfl
  split
  · next h =>
    obtain ⟨a, b, d, e, hhex, hfour⟩ := hexFour?_hexDigits h
    obtain ⟨last, more, rfl⟩ := List.exists_cons_of_ne_nil hrest
    rw [hhex]
    simp only [List.cons_append, List.nil_append]
    rw [readUnits, hfour]
  · next hquote hslash _ _ _ _ _ hcontrol =>
    rw [List.singleton_append, readUnits, if_neg hcontrol]
    all_goals grind

theorem readUnits_string (opening : Nat) (cs rest : List Char) :
    readUnits opening (cs.flatMap escapeChar ++ '"' :: rest) = .ok (cs.map Char.toNat, rest) := by
  induction cs with
  | nil => rfl
  | cons c cs ih =>
    rw [List.flatMap_cons, List.append_assoc, readUnits_escapeChar opening c (by simp), ih]
    rfl

theorem not_surrogate (c : Char) : ¬ (0xd800 ≤ c.toNat ∧ c.toNat < 0xe000) := by
  have := c.valid
  simp only [UInt32.isValidChar, Nat.isValidChar] at this
  have : c.toNat = c.val.toNat := rfl
  omega

theorem ofNat_toNat (c : Char) : Point.ofNat c.toNat = .char c := by
  rw [Point.ofNat, dif_neg (not_surrogate c), Char.ofNat_toNat]

/-- No character is half of a surrogate pair, so its unit stands for itself. -/
theorem joinUnits_map_toNat (cs : List Char) :
    joinUnits (cs.map Char.toNat) = cs.map .char := by
  induction cs with
  | nil => rfl
  | cons c cs ih =>
    cases cs with
    | nil => exact congrArg (· :: []) (ofNat_toNat c)
    | cons d cs =>
      have := not_surrogate c
      rw [List.map_cons, List.map_cons, joinUnits, if_neg (by omega), ofNat_toNat]
      exact congrArg (.char c :: ·) ih

/-- A string is read back after its opening quote. -/
theorem readString_flatMap (s : String) (rest : List Char) :
    readString (s.toList.flatMap escapeChar ++ '"' :: rest) = .ok (.plain s, rest) := by
  rw [readString, readUnits_string]
  simp [Except.map, joinUnits_map_toNat, Str.ofPoints_map_char]

/-- The characters of a string's text. -/
def stringChars (s : String) : List Char := Point.chars (stringPoints s)

theorem stringChars_append (s : String) (rest : List Char) :
    stringChars s ++ rest = '"' :: (s.toList.flatMap escapeChar ++ '"' :: rest) := by
  have hescape : (s.toList.map Point.char).flatMap escapePoint =
      (s.toList.flatMap escapeChar).map .char := by
    rw [List.flatMap_map, List.map_flatMap]
    rfl
  have hpoints : stringPoints s = ('"' :: (s.toList.flatMap escapeChar ++ ['"'])).map .char := by
    rw [stringPoints, Str.points, hescape]
    simp
  rw [stringChars, hpoints, Point.chars_map_char]
  simp

/-! ### Integers -/

/-- What may stand behind a number: nothing, or a character that does not extend it. -/
def Follows (rest : List Char) : Prop :=
  ∀ c ∈ rest.head?, ¬ isDigit c ∧ c ≠ '.' ∧ c ≠ 'e' ∧ c ≠ 'E'

theorem follows_nil : Follows [] := by
  simp [Follows]

theorem isDigit_iff {c : Char} : isDigit c ↔ c.isDigit := by
  simp [isDigit, Char.isDigit, Char.le_def]

theorem takeWhile_digits {ds rest : List Char} (hds : ∀ c ∈ ds, c.isDigit) (hrest : Follows rest) :
    (ds ++ rest).takeWhile isDigit = ds ∧ (ds ++ rest).dropWhile isDigit = rest := by
  have hdigit : ∀ c ∈ ds, isDigit c := fun c hc => isDigit_iff.mpr (hds c hc)
  rw [List.takeWhile_append_of_pos hdigit, List.dropWhile_append_of_pos hdigit]
  cases rest with
  | nil => simp
  | cons c rest =>
    have hc := (hrest c rfl).1
    rw [List.takeWhile_cons_of_neg hc, List.dropWhile_cons_of_neg hc, List.append_nil]
    exact ⟨rfl, rfl⟩

theorem readFraction_of_follows {rest : List Char} (h : Follows rest) :
    readFraction rest = (none, rest) := by
  rw [readFraction]
  rintro more rfl
  exact (h '.' rfl).2.1 rfl

theorem readExponent_of_follows {rest : List Char} (h : Follows rest) :
    readExponent rest = none := by
  cases rest with
  | nil => rfl
  | cons c rest =>
    have hc := h c rfl
    unfold readExponent
    split <;> simp_all

theorem digitsValue_eq (ds : List Char) : digitsValue ds = Nat.ofDigitChars 10 ds 0 := by
  simp only [digitsValue, Nat.ofDigitChars_eq_foldl, Nat.mul_comm 10]
  rfl

theorem finishNumber_of_follows {rest : List Char} (h : Follows rest) (negative : Bool) {n : Nat}
    (hn : (Nat.toDigits 10 n).length ≤ Integer.digitLimit) :
    finishNumber negative (Nat.toDigits 10 n) rest =
      .ok (.int (if negative then -n else n), rest) := by
  simp only [finishNumber, readFraction_of_follows h, readExponent_of_follows h,
    if_neg (Nat.not_lt.mpr hn), digitsValue_eq, Nat.ofDigitChars_ten_toDigits]

/-- Only zero is written with a zero in front. -/
theorem toDigits_head {n : Nat} {ds : List Char} (h : Nat.toDigits 10 n = '0' :: ds) : n = 0 := by
  have hdigit : ∀ k < 10, k.digitChar = '0' → k = 0 := by decide
  induction n using Nat.strongRecOn generalizing ds with
  | ind n ih =>
    rcases Nat.lt_or_ge n 10 with hn | hn
    · rw [Nat.toDigits_of_lt_base hn] at h
      exact hdigit n hn (List.cons.inj h).1
    · rw [Nat.toDigits_of_base_le (by decide) hn] at h
      obtain ⟨c, cs, hcs⟩ :=
        List.exists_cons_of_ne_nil (Nat.toDigits_ne_nil (n := n / 10) (b := 10))
      rw [hcs] at h
      obtain rfl : c = '0' := (List.cons.inj h).1
      have := ih (n / 10) (by omega) hcs
      omega

theorem readNumber_toDigits {n : Nat} (hn : (Nat.toDigits 10 n).length ≤ Integer.digitLimit)
    {rest : List Char} (h : Follows rest) (negative : Bool) (start : Nat) :
    readNumber negative start (Nat.toDigits 10 n ++ rest) =
      .ok (.int (if negative then -n else n), rest) := by
  have hfinish := finishNumber_of_follows h negative hn
  have hdigit : ∀ c ∈ Nat.toDigits 10 n, c.isDigit := fun c hc => Integer.isDigit_of_mem hc
  obtain ⟨htake, hdrop⟩ := takeWhile_digits hdigit h
  obtain ⟨c, cs, hcs⟩ := List.exists_cons_of_ne_nil (Nat.toDigits_ne_nil (n := n) (b := 10))
  by_cases hzero : c = '0'
  · subst hzero
    obtain rfl := toDigits_head hcs
    exact hfinish
  · rw [hcs] at hfinish htake hdrop ⊢
    rw [readNumber, htake]
    · simp only [hdrop, hfinish]
    · rintro more heq
      exact hzero (List.cons.inj heq).1

/-- An integer is read back, if it has not too many digits. -/
theorem readScalar_intChars {n : Int}
    (hn : (Nat.toDigits 10 n.natAbs).length ≤ Integer.digitLimit) {rest : List Char}
    (h : Follows rest) : readScalar (intChars n ++ rest) = .ok (.int n, rest) := by
  have hdigit : ∀ k, ∀ c ∈ Nat.toDigits 10 k, c.isDigit := fun k c hc => Integer.isDigit_of_mem hc
  cases n with
  | ofNat k =>
    have hread := fun start => readNumber_toDigits hn h false start
    obtain ⟨c, cs, hcs⟩ := List.exists_cons_of_ne_nil (Nat.toDigits_ne_nil (n := k) (b := 10))
    have hc := hdigit k c (by rw [hcs]; exact List.mem_cons_self)
    simp only [Int.ofNat_eq_natCast, Int.natAbs_natCast, hcs] at hread
    rw [intChars, hcs, readScalar, hread]
    · rfl
    all_goals
      intro more heq
      refine Integer.ne_of_isDigit hc ?_ (List.cons.inj heq).1
      decide
  | negSucc k =>
    have hread := fun start => readNumber_toDigits hn h true start
    obtain ⟨c, cs, hcs⟩ := List.exists_cons_of_ne_nil (Nat.toDigits_ne_nil (n := k + 1) (b := 10))
    have hc := hdigit (k + 1) c (by rw [hcs]; exact List.mem_cons_self)
    simp only [Int.natAbs_negSucc, Nat.succ_eq_add_one, hcs] at hread
    rw [intChars, hcs, List.cons_append, readScalar, hread]
    · rfl
    · intro more heq
      refine Integer.ne_of_isDigit hc ?_ (List.cons.inj heq).1
      decide

end RenameServer.Json
