import RenameServer.Frame
import RenameServer.Proofs.Encoding

/-!
Which messages can be written. A value is written if its integers have not too many
digits and it is not nested too deep; it is encoded if in addition no half of a
surrogate pair stands alone in it, as a string or as a key. Its frame then holds
the characters of its text.
-/
namespace RenameServer

open Utf8 (Bytes)

namespace Point

/-- Code points of which each is a character. -/
def Solid (ps : List Point) : Prop := ∀ p ∈ ps, p.isHalf = false

def char? : Point → Option Char
  | .char c => some c
  | .half _ => none

/-- The characters among code points. -/
def chars (ps : List Point) : List Char := ps.filterMap char?

theorem chars_append (ps qs : List Point) : chars (ps ++ qs) = chars ps ++ chars qs :=
  List.filterMap_append

theorem chars_map_char (cs : List Char) : chars (cs.map .char) = cs := by
  induction cs with
  | nil => rfl
  | cons c cs ih => exact congrArg (c :: ·) ih

theorem solid_map_char (cs : List Char) : Solid (cs.map .char) := by
  intro p hp
  obtain ⟨c, -, rfl⟩ := List.mem_map.mp hp
  rfl

theorem solid_append {ps qs : List Point} : Solid (ps ++ qs) ↔ Solid ps ∧ Solid qs := by
  simp only [Solid, List.mem_append, or_imp, forall_and]

theorem Solid.map_chars {ps : List Point} (h : Solid ps) : (chars ps).map .char = ps := by
  induction ps with
  | nil => rfl
  | cons p ps ih =>
    obtain ⟨hp, hps⟩ := List.forall_mem_cons.mp h
    cases p with
    | char c => exact congrArg (.char c :: ·) (ih hps)
    | half half => cases hp

theorem leading_append_trailing (ps : List Point) :
    (leading ps).map .char ++ trailing ps = ps := by
  induction ps with
  | nil => rfl
  | cons p ps ih =>
    cases p with
    | char c => exact congrArg (.char c :: ·) ih
    | half half => rfl

/-- What comes after the leading characters starts with a half. -/
theorem trailing_cases (ps : List Point) :
    trailing ps = [] ∨ ∃ half after, trailing ps = .half half :: after := by
  induction ps with
  | nil => exact .inl rfl
  | cons p ps ih =>
    cases p with
    | char c => exact ih
    | half half => exact .inr ⟨half, ps, rfl⟩

end Point

namespace Str

theorem points_ofPoints (ps : List Point) : (ofPoints ps).points = ps := by
  have hsplit := Point.leading_append_trailing ps
  rw [ofPoints]
  rcases Point.trailing_cases ps with hnil | ⟨half, after, hhalf⟩
  · rw [hnil, List.append_nil] at hsplit
    rw [hnil, points, String.toList_ofList, hsplit]
  · rw [hhalf] at hsplit
    rw [hhalf, points, Ragged.points, String.toList_ofList, hsplit]

/-- A text is plain if no half stands alone in it. -/
theorem exists_plain_iff {s : Str} : (∃ text, s = .plain text) ↔ Point.Solid s.points := by
  cases s with
  | plain text => exact iff_of_true ⟨text, rfl⟩ (Point.solid_map_char _)
  | ragged r =>
    refine iff_of_false ?_ fun h => ?_
    · rintro ⟨text, h⟩
      cases h
    · rw [points, Ragged.points, Point.solid_append] at h
      cases h.2 _ List.mem_cons_self

end Str

namespace Json

/-- Induction over values, where arrays and objects come after what is in them. -/
@[elab_as_elim]
theorem induction {P : Json → Prop} (null : P .null) (bool : ∀ b, P (.bool b))
    (int : ∀ n, P (.int n)) (float : ∀ x, P (.float x)) (str : ∀ s, P (.str s))
    (ragged : ∀ r, P (.ragged r)) (arr : ∀ items, (∀ x ∈ items, P x) → P (.arr items))
    (obj : ∀ fields, (∀ f ∈ fields, P f.2) → P (.obj fields)) (x : Json) : P x :=
  @Json.rec P (fun items => ∀ x ∈ items, P x) (fun fields => ∀ f ∈ fields, P f.2)
    (fun f => P f.2) null bool int float str ragged arr obj (List.forall_mem_nil _)
    (fun _ _ hx hxs => List.forall_mem_cons.mpr ⟨hx, hxs⟩) (List.forall_mem_nil _)
    (fun _ _ hf hfs => List.forall_mem_cons.mpr ⟨hf, hfs⟩) (fun _ _ hx => hx) x

/-! ### The limits -/

/-- Values whose integers are not too long, with at most `depth` arrays and
objects inside each other. -/
inductive Within : Nat → Json → Prop
  | null {depth : Nat} : Within depth .null
  | bool {depth : Nat} (b : Bool) : Within depth (.bool b)
  | int {depth : Nat} {n : Int}
    (hdigits : (Nat.toDigits 10 n.natAbs).length ≤ Integer.digitLimit) : Within depth (.int n)
  | float {depth : Nat} (x : Binary64) : Within depth (.float x)
  | str {depth : Nat} (s : String) : Within depth (.str s)
  | ragged {depth : Nat} (r : Ragged) : Within depth (.ragged r)
  | arr {depth : Nat} {items : List Json} (hitems : ∀ x ∈ items, Within depth x) :
    Within (depth + 1) (.arr items)
  | obj {depth : Nat} {fields : List (Str × Json)} (hfields : ∀ f ∈ fields, Within depth f.2) :
    Within (depth + 1) (.obj fields)

theorem itemsObstacle?_eq_none_iff {depth : Nat} {items : List Json} :
    itemsObstacle? depth items = none ↔ ∀ x ∈ items, obstacle? depth x = none := by
  induction items with
  | nil => exact iff_of_true rfl (List.forall_mem_nil _)
  | cons x xs ih => rw [itemsObstacle?, Option.or_eq_none_iff, ih, List.forall_mem_cons]

theorem fieldsObstacle?_eq_none_iff {depth : Nat} {fields : List (Str × Json)} :
    fieldsObstacle? depth fields = none ↔ ∀ f ∈ fields, obstacle? depth f.2 = none := by
  induction fields with
  | nil => exact iff_of_true rfl (List.forall_mem_nil _)
  | cons f fs ih =>
    obtain ⟨key, x⟩ := f
    rw [fieldsObstacle?, Option.or_eq_none_iff, ih, List.forall_mem_cons]

/-- Nothing keeps a value within the limits from being written. -/
theorem Within.obstacle? {depth : Nat} {x : Json} (h : Within depth x) :
    x.obstacle? depth = none := by
  induction h with
  | int hdigits => exact if_neg (Nat.not_lt.mpr hdigits)
  | arr _ ih => exact itemsObstacle?_eq_none_iff.mpr ih
  | obj _ ih => exact fieldsObstacle?_eq_none_iff.mpr ih
  | null | bool | float | str | ragged => rfl

theorem obstacle?_eq_none_iff {depth : Nat} {x : Json} :
    x.obstacle? depth = none ↔ Within depth x := by
  refine ⟨fun h => ?_, Within.obstacle?⟩
  induction x using Json.induction generalizing depth with
  | null => exact .null
  | bool b => exact .bool b
  | int n =>
    rw [Json.obstacle?] at h
    split at h
    · cases h
    · next hdigits => exact .int (Nat.not_lt.mp hdigits)
  | float x => exact .float x
  | str s => exact .str s
  | ragged r => exact .ragged r
  | arr items ih =>
    cases depth with
    | zero => cases h
    | succ depth => exact .arr fun x hx => ih x hx (itemsObstacle?_eq_none_iff.mp h x hx)
  | obj fields ih =>
    cases depth with
    | zero => cases h
    | succ depth => exact .obj fun f hf => ih f hf (fieldsObstacle?_eq_none_iff.mp h f hf)

theorem Within.mono {depth depth' : Nat} {x : Json} (h : Within depth x) (hle : depth ≤ depth') :
    Within depth' x := by
  induction h generalizing depth' with
  | null => exact .null
  | bool b => exact .bool b
  | int hdigits => exact .int hdigits
  | float x => exact .float x
  | str s => exact .str s
  | ragged r => exact .ragged r
  | arr _ ih =>
    obtain ⟨more, rfl⟩ := Nat.exists_eq_add_of_le' (Nat.lt_of_lt_of_le (Nat.succ_pos _) hle)
    exact .arr fun x hx => ih x hx (Nat.le_of_succ_le_succ hle)
  | obj _ ih =>
    obtain ⟨more, rfl⟩ := Nat.exists_eq_add_of_le' (Nat.lt_of_lt_of_le (Nat.succ_pos _) hle)
    exact .obj fun f hf => ih f hf (Nat.le_of_succ_le_succ hle)

/-! ### Halves -/

/-- Values in whose text no half stands alone. -/
def Whole (x : Json) : Prop := Point.Solid (points x)

theorem solid_marks (text : String) : Point.Solid (marks text) := Point.solid_map_char _

theorem solid_stringPoints {s : Str} : Point.Solid (stringPoints s) ↔ ∃ text, s = .plain text := by
  have hquote : Point.Solid [.char '"'] := Point.solid_map_char ['"']
  rw [Str.exists_plain_iff, stringPoints, ← List.singleton_append, List.append_assoc,
    Point.solid_append, Point.solid_append]
  refine ⟨fun h p hp => ?_, fun h => ⟨hquote, fun q hq => ?_, hquote⟩⟩
  · cases p with
    | char c => rfl
    | half half => exact h.2.1 _ (List.mem_flatMap.mpr ⟨_, hp, List.mem_singleton_self _⟩)
  · obtain ⟨p, hp, hq⟩ := List.mem_flatMap.mp hq
    cases p with
    | char c => exact Point.solid_map_char _ q hq
    | half half => cases h _ hp

theorem solid_itemPoints {items : List Json} :
    Point.Solid (itemPoints items) ↔ ∀ x ∈ items, Whole x := by
  induction items with
  | nil => exact iff_of_true (solid_marks _) (List.forall_mem_nil _)
  | cons x xs ih =>
    rw [itemPoints, Point.solid_append, Point.solid_append, List.forall_mem_cons, ih,
      and_iff_right (solid_marks _)]
    rfl

theorem solid_field {key : Str} {x : Json} {rest : List Point} (opening : String) :
    Point.Solid (marks opening ++ stringPoints key ++ marks ": " ++ points x ++ rest) ↔
      ((∃ text, key = .plain text) ∧ Whole x) ∧ Point.Solid rest := by
  simp only [Point.solid_append, solid_stringPoints, solid_marks, true_and, and_true]
  rfl

theorem solid_fieldPoints {fields : List (Str × Json)} :
    Point.Solid (fieldPoints fields) ↔ ∀ f ∈ fields, (∃ text, f.1 = .plain text) ∧ Whole f.2 := by
  induction fields with
  | nil => exact iff_of_true (solid_marks _) (List.forall_mem_nil _)
  | cons f fs ih =>
    obtain ⟨key, x⟩ := f
    rw [fieldPoints, solid_field, ih, List.forall_mem_cons]

theorem whole_null : Whole .null := solid_marks _

theorem whole_bool (b : Bool) : Whole (.bool b) := by
  cases b <;> exact solid_marks _

theorem whole_int (n : Int) : Whole (.int n) := Point.solid_map_char _

theorem whole_str (s : String) : Whole (.str s) := solid_stringPoints.mpr ⟨s, rfl⟩

theorem not_whole_ragged (r : Ragged) : ¬ Whole (.ragged r) := by
  intro h
  obtain ⟨text, hr⟩ := solid_stringPoints.mp h
  cases hr

theorem whole_arr_iff {items : List Json} : Whole (.arr items) ↔ ∀ x ∈ items, Whole x := by
  cases items with
  | nil => exact iff_of_true (solid_marks _) (List.forall_mem_nil _)
  | cons x xs =>
    rw [Whole, points, Point.solid_append, Point.solid_append, solid_itemPoints,
      List.forall_mem_cons, and_iff_right (solid_marks _)]
    rfl

theorem whole_obj_iff {fields : List (Str × Json)} :
    Whole (.obj fields) ↔ ∀ f ∈ fields, (∃ text, f.1 = .plain text) ∧ Whole f.2 := by
  cases fields with
  | nil => exact iff_of_true (solid_marks _) (List.forall_mem_nil _)
  | cons f fs =>
    obtain ⟨key, x⟩ := f
    rw [Whole, points, solid_field, solid_fieldPoints, List.forall_mem_cons]

/-- The characters of a value's text. -/
def chars (x : Json) : List Char := Point.chars (points x)

theorem Whole.compact {x : Json} (h : Whole x) : x.compact = .plain (String.ofList x.chars) := by
  rw [Json.compact, ← h.map_chars, Str.ofPoints_map_char]
  rfl

theorem whole_of_compact {x : Json} {text : String} (h : x.compact = .plain text) : Whole x := by
  have hsolid := Str.exists_plain_iff.mp ⟨text, h⟩
  rwa [Json.compact, Str.points_ofPoints] at hsolid

theorem written_eq_ok_iff {depth : Nat} {x : Json} {text : Str} :
    x.written depth = .ok text ↔ Within depth x ∧ text = x.compact := by
  rw [written, ← obstacle?_eq_none_iff]
  cases x.obstacle? depth with
  | none => exact ⟨fun h => ⟨rfl, (Except.ok.inj h).symm⟩, fun h => congrArg _ h.2.symm⟩
  | some fault => exact iff_of_false (fun h => by cases h) fun h => by cases h.1

end Json

/-- A message has a frame if it is within the limits and no half stands alone in it. -/
theorem Frame.encode_eq_ok_iff {depth : Nat} {message : Json} {frame : Bytes} :
    encode depth message = .ok frame ↔ message.Within depth ∧ message.Whole ∧
      frame = wrap (Utf8.encode (String.ofList message.chars)) := by
  constructor
  · intro h
    rw [encode] at h
    obtain ⟨text, htext, h⟩ := exists_of_bind_ok h
    obtain ⟨hwithin, rfl⟩ := Json.written_eq_ok_iff.mp htext
    split at h
    · next text hplain =>
      have hwhole := Json.whole_of_compact hplain
      obtain rfl := Str.plain.inj (hplain.symm.trans hwhole.compact)
      exact ⟨hwithin, hwhole, (Except.ok.inj h).symm⟩
    · cases h
  · rintro ⟨hwithin, hwhole, rfl⟩
    rw [encode, Json.written_eq_ok_iff.mpr ⟨hwithin, rfl⟩, hwhole.compact]
    rfl

end RenameServer
