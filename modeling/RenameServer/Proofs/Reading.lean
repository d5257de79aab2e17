import Mathlib.Algebra.Group.Nat.Defs
import RenameServer.Proofs.Literals

/-!
Which values come back when they are written and read again. Reading gives only
values that keep to its limits, on the digits of integers and on the nesting of
arrays and objects; and a value that has a text of its own, without floating
point numbers and halves and with each key once, comes back from that text if it
keeps to these limits.
-/
namespace RenameServer.Json

/-- Values without floating point numbers and halves that stand alone, whose objects have
each key once. -/
inductive Plain : Json → Prop
  | null : Plain .null
  | bool (b : Bool) : Plain (.bool b)
  | int (n : Int) : Plain (.int n)
  | str (s : String) : Plain (.str s)
  | arr {items : List Json} (hitems : ∀ x ∈ items, Plain x) : Plain (.arr items)
  | obj {fields : List (Str × Json)} (hkeys : (fields.map Prod.fst).Nodup)
    (htexts : ∀ f ∈ fields, ∃ text, f.1 = .plain text) (hfields : ∀ f ∈ fields, Plain f.2) :
    Plain (.obj fields)

attribute [simp] Plain.null Plain.bool Plain.int Plain.str

@[simp] theorem plain_arr_iff {items : List Json} : (arr items).Plain ↔ ∀ x ∈ items, x.Plain := by
  constructor
  · rintro ⟨⟩
    assumption
  · exact .arr

@[simp] theorem plain_obj_iff {fields : List (Str × Json)} :
    (obj fields).Plain ↔ (fields.map Prod.fst).Nodup ∧
      (∀ f ∈ fields, ∃ text, f.1 = .plain text) ∧ ∀ f ∈ fields, f.2.Plain := by
  constructor
  · rintro ⟨⟩
    exact ⟨‹_›, ‹_›, ‹_›⟩
  · rintro ⟨hkeys, htexts, hfields⟩
    exact .obj hkeys htexts hfields

theorem Plain.whole {x : Json} (h : x.Plain) : x.Whole := by
  induction h with
  | null => exact whole_null
  | bool b => exact whole_bool b
  | int n => exact whole_int n
  | str s => exact whole_str s
  | arr _ ih => exact whole_arr_iff.mpr ih
  | obj _ htexts _ ih => exact whole_obj_iff.mpr fun f hf => ⟨htexts f hf, ih f hf⟩

/-! ### What is read keeps to the limits -/

theorem ofDigitChars_lt {ds : List Char} (h : ∀ c ∈ ds, isDigit c) (n : Nat) :
    Nat.ofDigitChars 10 ds n < (n + 1) * 10 ^ ds.length := by
  induction ds generalizing n with
  | nil => simp [Nat.ofDigitChars_eq_foldl]
  | cons c ds ih =>
    obtain ⟨hc, hds⟩ := List.forall_mem_cons.mp h
    have hdigit := Integer.toNat_of_isDigit (isDigit_iff.mp hc)
    rw [Nat.ofDigitChars_cons, List.length_cons, Nat.pow_succ']
    refine Nat.lt_of_lt_of_le (ih hds _) ?_
    rw [← Nat.mul_assoc]
    refine Nat.mul_le_mul_right _ ?_
    have : ('0').toNat = 48 := rfl
    omega

/-- A number has no more digits than it was written with. -/
theorem length_toDigits_digitsValue {ds : List Char} (h : ∀ c ∈ ds, isDigit c)
    (hlimit : ds.length ≤ Integer.digitLimit) :
    (Nat.toDigits 10 (digitsValue ds)).length ≤ Integer.digitLimit := by
  have hvalue := ofDigitChars_lt h 0
  rw [Nat.zero_add, Nat.one_mul, ← digitsValue_eq] at hvalue
  rw [Nat.length_toDigits_le_iff (by decide) (by decide)]
  exact Nat.lt_of_lt_of_le hvalue (Nat.pow_le_pow_right (by decide) hlimit)

variable {fuel depth : Nat} {text rest : List Char} {x : Json}

theorem within_of_finishNumber {negative : Bool} {whole : List Char}
    (hwhole : ∀ c ∈ whole, isDigit c)
    (h : finishNumber negative whole text = .ok (x, rest)) : Within depth x := by
  unfold finishNumber at h
  dsimp only at h
  split at h
  · split at h
    · cases h
    · next hlimit =>
      obtain ⟨rfl, -⟩ := Prod.mk.inj (Except.ok.inj h)
      refine .int ?_
      have hdigits := length_toDigits_digitsValue hwhole (Nat.not_lt.mp hlimit)
      cases negative <;> simpa using hdigits
  all_goals
    obtain ⟨rfl, -⟩ := Prod.mk.inj (Except.ok.inj h)
    exact .float _

theorem within_of_readNumber {negative : Bool} {start : Nat}
    (h : readNumber negative start text = .ok (x, rest)) : Within depth x := by
  unfold readNumber at h
  split at h
  · exact within_of_finishNumber (by simp [isDigit]) h
  · split at h
    · cases h
    · exact within_of_finishNumber (fun c hc => List.mem_takeWhile_imp hc) h

theorem within_of_readScalar (h : readScalar text = .ok (x, rest)) : Within depth x := by
  unfold readScalar at h
  split at h
  case h_7 =>
    obtain ⟨⟨s, r⟩, -, hs⟩ := exists_of_map_ok h
    obtain ⟨rfl, -⟩ := Prod.mk.inj hs
    cases s with
    | plain s => exact .str s
    | ragged r => exact .ragged r
  case h_8 => exact within_of_readNumber h
  case h_9 => exact within_of_readNumber h
  all_goals
    obtain ⟨rfl, -⟩ := Prod.mk.inj (Except.ok.inj h)
    constructor

/-- With this fuel, only values within the limits are read. -/
structure Bounded (fuel : Nat) : Prop where
  value : ∀ {depth text x rest}, readValue fuel depth text = .ok (x, rest) → Within depth x
  items : ∀ {depth text xs rest}, readItems fuel depth text = .ok (xs, rest) →
    ∀ x ∈ xs, Within depth x
  fields : ∀ {depth before text fs rest}, readFields fuel depth before text = .ok (fs, rest) →
    (∀ f ∈ before, Within depth f.2) → ∀ f ∈ fs, Within depth f.2

theorem Bounded.value_succ (h : Bounded fuel)
    (hread : readValue (fuel + 1) depth text = .ok (x, rest)) : Within depth x := by
  rw [readValue.eq_def] at hread
  dsimp only at hread
  split at hread
  · split at hread
    · cases hread
    · split at hread
      · obtain ⟨rfl, -⟩ := Prod.mk.inj (Except.ok.inj hread)
        exact .arr (List.forall_mem_nil _)
      · obtain ⟨⟨xs, r⟩, hitems, heq⟩ := exists_of_map_ok hread
        obtain ⟨rfl, -⟩ := Prod.mk.inj heq
        exact .arr (h.items hitems)
  · split at hread
    · cases hread
    · split at hread
      · obtain ⟨rfl, -⟩ := Prod.mk.inj (Except.ok.inj hread)
        exact .obj (List.forall_mem_nil _)
      · obtain ⟨⟨fs, r⟩, hfields, heq⟩ := exists_of_map_ok hread
        obtain ⟨rfl, -⟩ := Prod.mk.inj heq
        exact .obj (h.fields hfields (List.forall_mem_nil _))
  · exact within_of_readScalar hread

theorem Bounded.items_succ (h : Bounded fuel) {xs : List Json}
    (hread : readItems (fuel + 1) depth text = .ok (xs, rest)) : ∀ x ∈ xs, Within depth x := by
  rw [readItems.eq_def] at hread
  dsimp only at hread
  split at hread
  · cases hread
  · next y r hvalue =>
    have hy := h.value hvalue
    split at hread
    · obtain ⟨rfl, -⟩ := Prod.mk.inj (Except.ok.inj hread)
      exact List.forall_mem_singleton.mpr hy
    · obtain ⟨⟨ys, r⟩, hitems, heq⟩ := exists_of_map_ok hread
      obtain ⟨rfl, -⟩ := Prod.mk.inj heq
      exact List.forall_mem_cons.mpr ⟨hy, h.items hitems⟩
    · cases hread

theorem forall_mem_setField {P : Json → Prop} {fields : List (Str × Json)} (key : Str)
    (hx : P x) (h : ∀ f ∈ fields, P f.2) : ∀ f ∈ setField key x fields, P f.2 := by
  induction fields with
  | nil => exact List.forall_mem_singleton.mpr hx
  | cons f fields ih =>
    obtain ⟨hf, hfields⟩ := List.forall_mem_cons.mp h
    rw [setField]
    split
    · exact List.forall_mem_cons.mpr ⟨hx, hfields⟩
    · exact List.forall_mem_cons.mpr ⟨hf, ih hfields⟩

theorem Bounded.fields_succ (h : Bounded fuel) {before fs : List (Str × Json)}
    (hread : readFields (fuel + 1) depth before text = .ok (fs, rest))
    (hbefore : ∀ f ∈ before, Within depth f.2) : ∀ f ∈ fs, Within depth f.2 := by
  rw [readFields.eq_def] at hread
  dsimp only at hread
  split at hread
  · split at hread
    · cases hread
    · split at hread
      · split at hread
        · cases hread
        · next hvalue =>
          have hset := fun key => forall_mem_setField key (h.value hvalue) hbefore
          split at hread
          · obtain ⟨rfl, -⟩ := Prod.mk.inj (Except.ok.inj hread)
            exact hset _
          · exact h.fields hread (hset _)
          · cases hread
      · cases hread
  · cases hread

theorem bounded (fuel : Nat) : Bounded fuel := by
  induction fuel with
  | zero =>
    constructor
    · intro depth text x rest h
      cases h
    · intro depth text xs rest h
      cases h
    · intro depth before text fs rest h
      cases h
  | succ fuel ih => exact ⟨ih.value_succ, ih.items_succ, ih.fields_succ⟩

/-- Every value that is read keeps to the limits. -/
theorem within_of_ofText {text : String} (h : ofText depth text = .ok x) : Within depth x := by
  rw [ofText] at h
  split at h
  · next hread =>
    obtain rfl := Except.ok.inj h
    unfold readAll at hread
    split at hread
    · cases hread
    · split at hread
      · cases hread
      · next hvalue =>
        split at hread
        · obtain rfl := Except.ok.inj hread
          exact (bounded _).value hvalue
        · cases hread
  · cases h

/-! ### What is written is read back -/

/-- The characters of the items after the first, through the closing bracket. -/
def itemChars (xs : List Json) : List Char := Point.chars (itemPoints xs)

/-- The characters of the fields after the first, through the closing brace. -/
def fieldChars (fs : List (Str × Json)) : List Char := Point.chars (fieldPoints fs)

theorem chars_marks (text : String) : Point.chars (marks text) = text.toList :=
  Point.chars_map_char _

theorem chars_arr_cons (x : Json) (xs : List Json) :
    chars (.arr (x :: xs)) = '[' :: (chars x ++ itemChars xs) := by
  simp only [chars, points, Point.chars_append, chars_marks, List.append_assoc]
  rfl

theorem itemChars_cons (x : Json) (xs : List Json) :
    itemChars (x :: xs) = ',' :: ' ' :: (chars x ++ itemChars xs) := by
  simp only [itemChars, itemPoints, Point.chars_append, chars_marks, List.append_assoc]
  rfl

theorem chars_obj_cons (key : String) (x : Json) (fs : List (Str × Json)) :
    chars (.obj ((.plain key, x) :: fs)) =
      '{' :: (stringChars key ++ ':' :: ' ' :: (chars x ++ fieldChars fs)) := by
  simp only [chars, points, Point.chars_append, chars_marks, List.append_assoc]
  rfl

theorem fieldChars_cons (key : String) (x : Json) (fs : List (Str × Json)) :
    fieldChars ((.plain key, x) :: fs) =
      ',' :: ' ' :: (stringChars key ++ ':' :: ' ' :: (chars x ++ fieldChars fs)) := by
  simp only [fieldChars, fieldPoints, Point.chars_append, chars_marks, List.append_assoc]
  rfl

theorem chars_int (n : Int) : chars (.int n) = intChars n := by
  rw [chars, points, Point.chars_map_char]

/-- At this depth the value is read back from its text, whatever may follow a value. -/
def Reads (depth : Nat) (x : Json) : Prop :=
  ∀ {fuel rest}, (chars x).length ≤ fuel → Follows rest →
    readValue fuel depth (chars x ++ rest) = .ok (x, rest)

/-- An integer starts with a digit or with its sign. -/
theorem intChars_head (n : Int) : ∃ c cs, intChars n = c :: cs ∧ (c.isDigit ∨ c = '-') := by
  cases n with
  | ofNat k =>
    obtain ⟨c, cs, hcs⟩ := List.exists_cons_of_ne_nil (Nat.toDigits_ne_nil (n := k) (b := 10))
    exact ⟨c, cs, hcs, .inl (Integer.isDigit_of_mem (hcs ▸ List.mem_cons_self))⟩
  | negSucc k => exact ⟨'-', _, rfl, .inr rfl⟩

theorem chars_head (h : x.Plain) :
    ∃ c cs, chars x = c :: cs ∧ isSpace c = false ∧ c ≠ ']' ∧ c.toNat < 0x80 := by
  cases h with
  | null => exact ⟨'n', _, rfl, by decide⟩
  | bool b => cases b with
    | false => exact ⟨'f', _, rfl, by decide⟩
    | true => exact ⟨'t', _, rfl, by decide⟩
  | int n =>
    obtain ⟨c, cs, hcs, hdigit | rfl⟩ := intChars_head n
    · have hne : ∀ d : Char, ¬ d.isDigit → c ≠ d := fun d => Integer.ne_of_isDigit hdigit
      have hbounds := Integer.toNat_of_isDigit hdigit
      exact ⟨c, cs, (chars_int n).trans hcs, by simp [isSpace, hne], hne ']' (by decide), by omega⟩
    · exact ⟨'-', cs, (chars_int n).trans hcs, by decide⟩
  | str s => exact ⟨'"', _, rfl, by decide⟩
  | @arr items _ => cases items with
    | nil => exact ⟨'[', _, rfl, by decide⟩
    | cons x xs => exact ⟨'[', _, rfl, by decide⟩
  | @obj fields _ _ _ => cases fields with
    | nil => exact ⟨'{', _, rfl, by decide⟩
    | cons f fs => exact ⟨'{', _, rfl, by decide⟩

theorem skip_of_not_space {c : Char} {cs : List Char} (h : isSpace c = false) :
    skip (c :: cs) = c :: cs :=
  List.dropWhile_cons_of_neg (by simp [h])

theorem skip_chars (h : x.Plain) (rest : List Char) : skip (chars x ++ rest) = chars x ++ rest := by
  obtain ⟨c, cs, hcs, hspace, -⟩ := chars_head h
  rw [hcs]
  exact skip_of_not_space hspace

theorem skip_blank_chars (h : x.Plain) (rest : List Char) :
    skip (' ' :: (chars x ++ rest)) = chars x ++ rest :=
  skip_chars h rest

theorem setField_of_not_mem {key : Str} {fields : List (Str × Json)}
    (h : key ∉ fields.map Prod.fst) : setField key x fields = fields ++ [(key, x)] := by
  induction fields with
  | nil => rfl
  | cons f fields ih =>
    rw [List.map_cons, List.mem_cons, not_or] at h
    rw [setField, if_neg (Ne.symm h.1), ih h.2, List.cons_append]

theorem not_mem_of_nodup {key : Str} {before fs : List (Str × Json)}
    (h : ((before ++ (key, x) :: fs).map Prod.fst).Nodup) : key ∉ before.map Prod.fst := by
  rw [List.map_append, List.nodup_append] at h
  exact fun hmem => h.2.2 key hmem key List.mem_cons_self rfl

theorem follows_cons {c : Char} (h : ¬ isDigit c ∧ c ≠ '.' ∧ c ≠ 'e' ∧ c ≠ 'E') (cs : List Char) :
    Follows (c :: cs) := by
  rintro d ⟨⟩
  exact h

theorem follows_itemChars (xs : List Json) (rest : List Char) : Follows (itemChars xs ++ rest) := by
  cases xs <;> exact follows_cons (by decide) _

theorem follows_fieldChars (fs : List (Str × Json)) (rest : List Char) :
    Follows (fieldChars fs ++ rest) := by
  cases fs <;> exact follows_cons (by decide) _

theorem length_itemChars_nil : (itemChars []).length = 1 := rfl

theorem length_fieldChars_nil : (fieldChars []).length = 1 := rfl

theorem readItems_chars {xs : List Json} (hplain : ∀ y ∈ x :: xs, y.Plain)
    (h : ∀ y ∈ x :: xs, Reads depth y) (hfuel : (chars x ++ itemChars xs).length ≤ fuel)
    (rest : List Char) :
    readItems fuel depth (chars x ++ (itemChars xs ++ rest)) = .ok (x :: xs, rest) := by
  induction xs generalizing x fuel with
  | nil =>
    rw [List.length_append, length_itemChars_nil] at hfuel
    cases fuel with
    | zero => omega
    | succ fuel =>
      rw [readItems, h x List.mem_cons_self (by omega) (follows_itemChars [] rest)]
      rfl
  | cons y ys ih =>
    obtain ⟨hx, hys⟩ := List.forall_mem_cons.mp h
    have hplains := (List.forall_mem_cons.mp hplain).2
    have hlength : (itemChars (y :: ys)).length = (chars y ++ itemChars ys).length + 2 := by
      rw [itemChars_cons]
      rfl
    rw [List.length_append] at hfuel
    cases fuel with
    | zero => omega
    | succ fuel =>
      have hitems :
          readItems fuel depth (chars y ++ (itemChars ys ++ rest)) = .ok (y :: ys, rest) :=
        ih hplains hys (by omega)
      have hcomma : skip (itemChars (y :: ys) ++ rest) =
          ',' :: ' ' :: (chars y ++ (itemChars ys ++ rest)) := by
        rw [itemChars_cons, List.cons_append, List.cons_append, List.append_assoc]
        rfl
      rw [readItems, hx (by omega) (follows_itemChars _ rest)]
      simp only [hcomma, skip_blank_chars (hplains y List.mem_cons_self), hitems]
      rfl

section

variable {after rest : List Char} (hplain : x.Plain) (hx : Reads depth x)
  (hfuel : (chars x).length ≤ fuel) (hafter : Follows after)

include hplain hx hfuel hafter

/-- A field with a brace behind it is the last one. -/
theorem readFields_last (before : List (Str × Json)) (key : String)
    (hend : skip after = '}' :: rest) :
    readFields (fuel + 1) depth before (stringChars key ++ ':' :: ' ' :: (chars x ++ after)) =
      .ok (setField key x before, rest) := by
  have hcolon : ∀ cs, skip (':' :: cs) = ':' :: cs := fun cs => rfl
  rw [stringChars_append, readFields, readString_flatMap]
  simp only [hcolon, skip_blank_chars hplain, hx hfuel hafter, hend]

/-- Behind a field with a comma there are more. -/
theorem readFields_more (before : List (Str × Json)) (key : String)
    (hcomma : skip after = ',' :: rest) :
    readFields (fuel + 1) depth before (stringChars key ++ ':' :: ' ' :: (chars x ++ after)) =
      readFields fuel depth (setField key x before) (skip rest) := by
  have hcolon : ∀ cs, skip (':' :: cs) = ':' :: cs := fun cs => rfl
  rw [stringChars_append, readFields, readString_flatMap]
  simp only [hcolon, skip_blank_chars hplain, hx hfuel hafter, hcomma]

end

theorem readFields_chars {before fs : List (Str × Json)} {key : String}
    (hkeys : ((before ++ (.plain key, x) :: fs).map Prod.fst).Nodup) (hxplain : x.Plain)
    (htexts : ∀ f ∈ fs, ∃ text, f.1 = .plain text) (hplain : ∀ f ∈ fs, f.2.Plain)
    (hx : Reads depth x) (h : ∀ f ∈ fs, Reads depth f.2)
    (hfuel : (chars x ++ fieldChars fs).length ≤ fuel) (rest : List Char) :
    readFields fuel depth before
        (stringChars key ++ ':' :: ' ' :: (chars x ++ (fieldChars fs ++ rest))) =
      .ok (before ++ (.plain key, x) :: fs, rest) := by
  induction fs generalizing x key before fuel with
  | nil =>
    have hnew := setField_of_not_mem (x := x) (not_mem_of_nodup hkeys)
    rw [List.length_append, length_fieldChars_nil] at hfuel
    cases fuel with
    | zero => omega
    | succ fuel =>
      have hend : skip (fieldChars [] ++ rest) = '}' :: rest := rfl
      rw [readFields_last hxplain hx (by omega) (follows_fieldChars [] rest) before key hend, hnew]
  | cons f gs ih =>
    obtain ⟨next, y⟩ := f
    obtain ⟨hy, hgs⟩ := List.forall_mem_cons.mp h
    obtain ⟨hyplain, hgsplain⟩ := List.forall_mem_cons.mp hplain
    obtain ⟨⟨next, rfl⟩, hgstexts⟩ := List.forall_mem_cons.mp htexts
    have hnew := setField_of_not_mem (x := x) (not_mem_of_nodup hkeys)
    have hlength :
        (chars y ++ fieldChars gs).length + 2 ≤ (fieldChars ((.plain next, y) :: gs)).length := by
      simp only [fieldChars_cons, List.length_append, List.length_cons]
      omega
    rw [List.length_append] at hfuel
    cases fuel with
    | zero => omega
    | succ fuel =>
      have hfields : readFields fuel depth (before ++ [(.plain key, x)])
          (stringChars next ++ ':' :: ' ' :: (chars y ++ (fieldChars gs ++ rest))) =
          .ok (before ++ [(.plain key, x)] ++ (.plain next, y) :: gs, rest) := by
        refine ih ?_ hyplain hgstexts hgsplain hy hgs (by omega)
        rwa [List.append_assoc, List.singleton_append]
      have hcomma : skip (fieldChars ((.plain next, y) :: gs) ++ rest) = ',' :: ' ' ::
          (stringChars next ++ ':' :: ' ' :: (chars y ++ (fieldChars gs ++ rest))) := by
        rw [fieldChars_cons]
        simp only [List.append_assoc, List.cons_append]
        rfl
      have hquote : skip (' ' :: (stringChars next ++
          ':' :: ' ' :: (chars y ++ (fieldChars gs ++ rest)))) =
          stringChars next ++ ':' :: ' ' :: (chars y ++ (fieldChars gs ++ rest)) := rfl
      rw [readFields_more hxplain hx (by omega) (follows_fieldChars _ rest) before key hcomma,
        hnew, hquote, hfields, List.append_assoc, List.singleton_append]

theorem reads_arr {items : List Json} (hplain : ∀ x ∈ items, x.Plain)
    (h : ∀ x ∈ items, Reads depth x) : Reads (depth + 1) (.arr items) := by
  intro fuel rest hfuel hrest
  cases items with
  | nil =>
    cases fuel with
    | zero => cases Nat.le_zero.mp hfuel
    | succ fuel => rfl
  | cons x xs =>
    rw [chars_arr_cons, List.length_cons] at hfuel
    cases fuel with
    | zero => omega
    | succ fuel =>
      obtain ⟨c, cs, hcs, -, hclose, -⟩ := chars_head (hplain x List.mem_cons_self)
      have hread := readItems_chars hplain h (Nat.le_of_succ_le_succ hfuel) rest
      rw [chars_arr_cons, List.cons_append, List.append_assoc, readValue,
        skip_chars (hplain x List.mem_cons_self)]
      split
      · next heq =>
        rw [hcs] at heq
        exact absurd (List.cons.inj heq).1 hclose
      · rw [hread]
        rfl

theorem reads_obj {fields : List (Str × Json)} (hkeys : (fields.map Prod.fst).Nodup)
    (htexts : ∀ f ∈ fields, ∃ text, f.1 = .plain text) (hplain : ∀ f ∈ fields, f.2.Plain)
    (h : ∀ f ∈ fields, Reads depth f.2) :
    Reads (depth + 1) (.obj fields) := by
  intro fuel rest hfuel hrest
  cases fields with
  | nil =>
    cases fuel with
    | zero => cases Nat.le_zero.mp hfuel
    | succ fuel => rfl
  | cons f fs =>
    obtain ⟨key, x⟩ := f
    obtain ⟨hx, hfs⟩ := List.forall_mem_cons.mp h
    obtain ⟨hxplain, hfsplain⟩ := List.forall_mem_cons.mp hplain
    obtain ⟨⟨key, rfl⟩, hfstexts⟩ := List.forall_mem_cons.mp htexts
    simp only [chars_obj_cons, List.length_cons, List.length_append] at hfuel
    cases fuel with
    | zero => omega
    | succ fuel =>
      have hread : readFields fuel depth []
          (stringChars key ++ ':' :: ' ' :: (chars x ++ (fieldChars fs ++ rest))) =
          .ok ((.plain key, x) :: fs, rest) := by
        refine readFields_chars hkeys hxplain hfstexts hfsplain hx hfs ?_ rest
        rw [List.length_append]
        dsimp only
        omega
      simp only [chars_obj_cons, List.cons_append, List.append_assoc]
      rw [stringChars_append] at hread ⊢
      exact congrArg (Except.map fun p => (Json.obj p.1, p.2)) hread

/-- A value that is no array and no object is read as a scalar. -/
theorem reads_of_readScalar {c : Char} {cs : List Char} (hchars : chars x = c :: cs)
    (hopen : c ≠ '[') (hbrace : c ≠ '{')
    (h : ∀ {rest}, Follows rest → readScalar (chars x ++ rest) = .ok (x, rest)) :
    Reads depth x := by
  intro fuel rest hfuel hrest
  have hread := h hrest
  rw [hchars] at hfuel hread ⊢
  cases fuel with
  | zero => simp at hfuel
  | succ fuel =>
    rw [List.cons_append, readValue]
    · exact hread
    · intro more heq
      exact hopen (List.cons.inj heq).1
    · intro more heq
      exact hbrace (List.cons.inj heq).1

/-- A value that has a text of its own and keeps to the limits is read back. -/
theorem reads_of_within (h : Within depth x) (hplain : x.Plain) : Reads depth x := by
  induction h with
  | null => exact reads_of_readScalar rfl (by decide) (by decide) fun _ => rfl
  | bool b =>
    cases b with
    | false => exact reads_of_readScalar rfl (by decide) (by decide) fun _ => rfl
    | true => exact reads_of_readScalar rfl (by decide) (by decide) fun _ => rfl
  | @int _ n hdigits =>
    obtain ⟨c, cs, hcs, hhead⟩ := intChars_head n
    rw [← chars_int] at hcs
    refine reads_of_readScalar hcs ?_ ?_ (chars_int n ▸ readScalar_intChars hdigits)
    all_goals
      rintro rfl
      revert hhead
      decide
  | float y => cases hplain
  | str s =>
    refine reads_of_readScalar rfl (by decide) (by decide) fun {rest} _ => ?_
    change readScalar (stringChars s ++ rest) = _
    rw [stringChars_append, readScalar, readString_flatMap]
    rfl
  | ragged r => cases hplain
  | arr _ ih =>
    cases hplain with
    | arr hitems => exact reads_arr hitems fun x hx => ih x hx (hitems x hx)
  | obj _ ih =>
    cases hplain with
    | obj hkeys htexts hfields =>
      exact reads_obj hkeys htexts hfields fun f hf => ih f hf (hfields f hf)

/-- The text of such a value is read as that value. -/
theorem ofText_chars (h : Within depth x) (hplain : x.Plain) :
    ofText depth (String.ofList x.chars) = .ok x := by
  obtain ⟨c, cs, hcs, hspace, -, hascii⟩ := chars_head hplain
  have hread : readAll depth (chars x) = .ok x := by
    have hvalue : readValue (2 * (chars x).length + 2) depth (chars x) = .ok (x, []) := by
      have := reads_of_within h hplain (show (chars x).length ≤ 2 * (chars x).length + 2 by omega)
        follows_nil
      rwa [List.append_nil] at this
    have hskip : skip (chars x) = chars x := by rw [hcs, skip_of_not_space hspace]
    unfold readAll
    split
    · next hmark =>
      obtain rfl : c = '﻿' := (List.cons.inj (hcs.symm.trans hmark)).1
      exact absurd hascii (by decide)
    · rw [hskip, hvalue]
      rfl
  rw [ofText, String.toList_ofList, hread]

end RenameServer.Json
