import Mathlib.Tactic.SplitIfs
import RenameServer.Edit.Basic

/-!
Splicing edits into the bytes of a source, and where an offset of the source is
found afterwards. The edits replace nonempty ranges and come in order. Splicing
and shifting go along the concatenation of two pieces, the edits of the first
piece before those of the second, and a byte outside all ranges keeps its value.
Offsets outside all ranges stay in order, and edits that replaced the same bytes
everywhere can be taken back.
-/
namespace RenameServer.Splice

open Utf8 (Bytes)

/-- Bytes of which the first is at `base`, with edits spliced in from left to right. -/
def spliceFrom (base : Nat) (source : Bytes) : List TextEdit → Bytes
  | [] => source
  | e :: rest =>
    source.take (e.range.start - base) ++ Utf8.encode e.replacement ++
      spliceFrom e.range.stop (source.drop (e.range.stop - base)) rest

theorem spliceFrom_cons (base : Nat) (source : Bytes) (e : TextEdit) (rest : List TextEdit) :
    spliceFrom base source (e :: rest) =
      source.take (e.range.start - base) ++ Utf8.encode e.replacement ++
        spliceFrom e.range.stop (source.drop (e.range.stop - base)) rest := rfl

/-- A source with edits spliced in. -/
def splice (source : Bytes) (edits : List TextEdit) : Bytes := spliceFrom 0 source edits

/-- The new place of an offset when `base` goes to `moved`. An edit that ends at
or before the offset moves it by the change of length. -/
def shiftFrom (base moved : Nat) : List TextEdit → Nat → Nat
  | [], o => moved + (o - base)
  | e :: rest, o =>
    if e.range.stop ≤ o then
      shiftFrom e.range.stop
        (moved + (e.range.start - base) + (Utf8.encode e.replacement).length) rest o
    else moved + (o - base)

theorem shiftFrom_nil (base moved o : Nat) : shiftFrom base moved [] o = moved + (o - base) := rfl

theorem shiftFrom_cons (base moved : Nat) (e : TextEdit) (rest : List TextEdit) (o : Nat) :
    shiftFrom base moved (e :: rest) o =
      if e.range.stop ≤ o then
        shiftFrom e.range.stop
          (moved + (e.range.start - base) + (Utf8.encode e.replacement).length) rest o
      else moved + (o - base) := rfl

/-- The place of an offset of the source after splicing. -/
def shift (edits : List TextEdit) (o : Nat) : Nat := shiftFrom 0 0 edits o

/-- Edits of nonempty ranges, in order and apart, from `base` to `limit`. -/
def Within (base limit : Nat) : List TextEdit → Prop
  | [] => base ≤ limit
  | e :: rest =>
    base ≤ e.range.start ∧ e.range.start < e.range.stop ∧ Within e.range.stop limit rest

theorem Within.le {base limit : Nat} {edits : List TextEdit} (h : Within base limit edits) :
    base ≤ limit := by
  induction edits generalizing base with
  | nil => exact h
  | cons e rest ih =>
    obtain ⟨hstart, hrange, hrest⟩ := h
    have := ih hrest
    omega

theorem Within.mono {base base' limit : Nat} {edits : List TextEdit}
    (h : Within base limit edits) (hbase : base' ≤ base) : Within base' limit edits := by
  cases edits with
  | nil => exact Nat.le_trans hbase h
  | cons e rest => exact ⟨Nat.le_trans hbase h.1, h.2⟩

theorem Within.of_append {base limit : Nat} {left right : List TextEdit}
    (h : Within base limit (left ++ right)) : ∃ middle, Within base middle left := by
  induction left generalizing base with
  | nil => exact ⟨base, Nat.le_refl base⟩
  | cons e rest ih =>
    obtain ⟨middle, hrest⟩ := ih h.2.2
    exact ⟨middle, h.1, h.2.1, hrest⟩

theorem Within.bounds {base limit : Nat} {edits : List TextEdit} (h : Within base limit edits) :
    ∀ e ∈ edits, e.range.start < e.range.stop ∧ e.range.stop ≤ limit := by
  induction edits generalizing base with
  | nil => simp
  | cons d rest ih =>
    intro e he
    rcases List.mem_cons.mp he with rfl | he
    · exact ⟨h.2.1, h.2.2.le⟩
    · exact ih h.2.2 e he

theorem Within.base_le {base limit : Nat} {edits : List TextEdit} (h : Within base limit edits) :
    ∀ e ∈ edits, base ≤ e.range.start := by
  induction edits generalizing base with
  | nil => simp
  | cons d rest ih =>
    obtain ⟨hstart, hrange, hrest⟩ := h
    intro e he
    rcases List.mem_cons.mp he with rfl | he
    · exact hstart
    · have := ih hrest e he
      omega

theorem Within.of_append_singleton {base limit : Nat} {edits : List TextEdit} {e : TextEdit}
    (h : Within base limit (edits ++ [e])) :
    Within base e.range.start edits ∧ e.range.start < e.range.stop ∧ e.range.stop ≤ limit := by
  induction edits generalizing base with
  | nil => exact h
  | cons d rest ih =>
    obtain ⟨hrest, hlast⟩ := ih h.2.2
    exact ⟨⟨h.1, h.2.1, hrest⟩, hlast⟩

/-- What is left after the first edit ends where the whole ends. -/
theorem Within.length_drop {base : Nat} {e : TextEdit} {rest : List TextEdit} {s : Bytes}
    (h : Within base (base + s.length) (e :: rest)) :
    e.range.stop + (s.drop (e.range.stop - base)).length = base + s.length := by
  obtain ⟨hstart, hrange, hrest⟩ := h
  have hle := hrest.le
  rw [List.length_drop]
  omega

/-- Edits that start later leave the first bytes alone. -/
theorem spliceFrom_skip {base n limit : Nat} {edits : List TextEdit}
    (h : Within (base + n) limit edits) (source : Bytes) :
    spliceFrom base source edits =
      source.take n ++ spliceFrom (base + n) (source.drop n) edits := by
  cases edits with
  | nil => exact (List.take_append_drop n source).symm
  | cons e rest =>
    obtain ⟨hstart, hrange, -⟩ := h
    have htake : source.take (e.range.start - base) =
        source.take n ++ (source.drop n).take (e.range.start - (base + n)) := by
      rw [← List.take_add]
      congr 1
      omega
    have hdrop : n + (e.range.stop - (base + n)) = e.range.stop - base := by omega
    simp only [spliceFrom_cons, htake, List.append_assoc, List.drop_drop, hdrop]

theorem spliceFrom_append {base limit : Nat} {left right : List TextEdit} (s t : Bytes)
    (hleft : Within base (base + s.length) left)
    (hright : Within (base + s.length) limit right) :
    spliceFrom base (s ++ t) (left ++ right) =
      spliceFrom base s left ++ spliceFrom (base + s.length) t right := by
  induction left generalizing base s with
  | nil =>
    rw [List.nil_append, spliceFrom_skip hright, List.take_left, List.drop_left]
    rfl
  | cons e rest ih =>
    have hlength := hleft.length_drop
    obtain ⟨hstart, hrange, hrest⟩ := hleft
    have hle := hrest.le
    have hmore := ih (s.drop (e.range.stop - base)) (hlength ▸ hrest) (hlength ▸ hright)
    rw [hlength] at hmore
    simp only [List.cons_append, spliceFrom_cons, List.append_assoc]
    rw [List.take_append_of_le_length (by omega), List.drop_append_of_le_length (by omega), hmore]

/-- The last edit by itself. -/
theorem splice_append_singleton {s : Bytes} (v rest : Bytes) {edits : List TextEdit} {e : TextEdit}
    (h : Within 0 s.length edits) (hstart : e.range.start = s.length)
    (hstop : e.range.stop = s.length + v.length) (hrange : e.range.start < e.range.stop) :
    splice (s ++ (v ++ rest)) (edits ++ [e]) =
      splice s edits ++ (Utf8.encode e.replacement ++ rest) := by
  have hleft : Within 0 (0 + s.length) edits := (Nat.zero_add s.length).symm ▸ h
  have hright : Within (0 + s.length) e.range.stop [e] :=
    ⟨by omega, hrange, Nat.le_refl _⟩
  have hlength : e.range.stop - s.length = v.length := by omega
  rw [splice, spliceFrom_append s (v ++ rest) hleft hright, Nat.zero_add]
  simp only [spliceFrom_cons, hstart, hlength, Nat.sub_self, List.take_zero, List.nil_append,
    List.drop_left]
  rfl

/-- An offset before all edits moves with `base`. -/
theorem shiftFrom_before {base moved first limit o : Nat} {edits : List TextEdit}
    (h : Within first limit edits) (ho : o ≤ first) :
    shiftFrom base moved edits o = moved + (o - base) := by
  cases edits with
  | nil => rfl
  | cons e rest =>
    obtain ⟨hstart, hrange, -⟩ := h
    rw [shiftFrom_cons, if_neg (by omega)]

theorem shiftFrom_append_le {base moved middle limit o : Nat} {left right : List TextEdit}
    (hright : Within middle limit right) (ho : o ≤ middle) :
    shiftFrom base moved (left ++ right) o = shiftFrom base moved left o := by
  induction left generalizing base moved with
  | nil => exact shiftFrom_before hright ho
  | cons e rest ih =>
    rw [List.cons_append, shiftFrom_cons, shiftFrom_cons, ih]

/-- Past the first piece an offset moves by what has become of that piece. -/
theorem shiftFrom_append_ge {base limit o : Nat} {left right : List TextEdit} (moved : Nat)
    (s : Bytes) (hleft : Within base (base + s.length) left)
    (hright : Within (base + s.length) limit right) (ho : base + s.length ≤ o) :
    shiftFrom base moved (left ++ right) o =
      shiftFrom (base + s.length) (moved + (spliceFrom base s left).length) right o := by
  induction left generalizing base moved s with
  | nil =>
    change shiftFrom base moved right o = shiftFrom _ (moved + s.length) right o
    cases right with
    | nil =>
      rw [shiftFrom_nil, shiftFrom_nil]
      omega
    | cons e rest =>
      obtain ⟨hstart, hrange, -⟩ := hright
      have hmoved : moved + s.length + (e.range.start - (base + s.length)) =
          moved + (e.range.start - base) := by omega
      simp only [shiftFrom_cons, hmoved]
      split_ifs with hstop
      · rfl
      · omega
  | cons e rest ih =>
    have hlength := hleft.length_drop
    obtain ⟨hstart, hrange, hrest⟩ := hleft
    have hle := hrest.le
    have hmore := ih (moved + (e.range.start - base) + (Utf8.encode e.replacement).length)
      (s.drop (e.range.stop - base)) (hlength ▸ hrest) (hlength ▸ hright) (hlength ▸ ho)
    rw [List.cons_append, shiftFrom_cons, if_pos (by omega), hmore, hlength, spliceFrom_cons]
    congr 1
    simp only [List.length_append, List.length_take]
    omega

theorem shiftFrom_add (base moved more : Nat) (edits : List TextEdit) (o : Nat) :
    shiftFrom base (more + moved) edits o = more + shiftFrom base moved edits o := by
  induction edits generalizing base moved with
  | nil => simp only [shiftFrom_nil, Nat.add_assoc]
  | cons e rest ih =>
    simp only [shiftFrom_cons, Nat.add_assoc, ih]
    split_ifs <;> rfl

/-- A byte outside all edited ranges is found at its new place. -/
theorem getElem?_spliceFrom {base o : Nat} {edits : List TextEdit} (s : Bytes)
    (h : Within base (base + s.length) edits) (hbase : base ≤ o)
    (houtside : ∀ e ∈ edits, ¬(e.range.start ≤ o ∧ o < e.range.stop)) :
    (spliceFrom base s edits)[shiftFrom base 0 edits o]? = s[o - base]? := by
  induction edits generalizing base s with
  | nil =>
    rw [shiftFrom_nil, Nat.zero_add]
    rfl
  | cons e rest ih =>
    have hlength := h.length_drop
    obtain ⟨hstart, hrange, hrest⟩ := h
    have hle := hrest.le
    have hhere := houtside e (List.mem_cons_self ..)
    have htake : (s.take (e.range.start - base)).length = e.range.start - base := by
      rw [List.length_take]
      omega
    rw [spliceFrom_cons, shiftFrom_cons, List.append_assoc]
    by_cases hstop : e.range.stop ≤ o
    · have hmore := ih (s.drop (e.range.stop - base)) (hlength ▸ hrest) hstop
        (fun e he => houtside e (List.mem_cons_of_mem _ he))
      rw [if_pos hstop, Nat.zero_add, ← Nat.add_zero (_ + _), shiftFrom_add, Nat.add_assoc,
        List.getElem?_append_right (by omega), htake, Nat.add_sub_cancel_left,
        List.getElem?_append_right (by omega), Nat.add_sub_cancel_left, hmore, List.getElem?_drop]
      congr 1
      omega
    · have hbefore : o < e.range.start := by omega
      rw [if_neg hstop, Nat.zero_add, List.getElem?_append_left (by omega),
        List.getElem?_take_of_lt (by omega)]

/-! ### The order of offsets -/

/-- An offset that is not inside the range of an edit. -/
def Clear (edits : List TextEdit) (o : Nat) : Prop :=
  ∀ e ∈ edits, o ≤ e.range.start ∨ e.range.stop ≤ o

theorem le_shiftFrom (base moved : Nat) (edits : List TextEdit) (o : Nat) :
    moved ≤ shiftFrom base moved edits o := by
  induction edits generalizing base moved with
  | nil =>
    rw [shiftFrom_nil]
    omega
  | cons e rest ih =>
    rw [shiftFrom_cons]
    split_ifs with hstop
    · have := ih e.range.stop
        (moved + (e.range.start - base) + (Utf8.encode e.replacement).length)
      omega
    · omega

/-- Offsets outside all edited ranges stay in order. -/
theorem shiftFrom_lt {base limit a b : Nat} {edits : List TextEdit} (h : Within base limit edits)
    (hnew : ∀ e ∈ edits, Utf8.encode e.replacement ≠ []) (ha : Clear edits a) (hb : Clear edits b)
    (hbase : base ≤ a) (hab : a < b) (moved : Nat) :
    shiftFrom base moved edits a < shiftFrom base moved edits b := by
  induction edits generalizing base moved with
  | nil =>
    rw [shiftFrom_nil, shiftFrom_nil]
    omega
  | cons e rest ih =>
    obtain ⟨hstart, hrange, hrest⟩ := h
    obtain ⟨hlength, hmore⟩ := List.forall_mem_cons.mp hnew
    obtain ⟨hea, harest⟩ := List.forall_mem_cons.mp ha
    obtain ⟨heb, hbrest⟩ := List.forall_mem_cons.mp hb
    have hpos := List.length_pos_iff.mpr hlength
    rw [shiftFrom_cons, shiftFrom_cons]
    by_cases hpast : e.range.stop ≤ a
    · rw [if_pos hpast, if_pos (by omega)]
      exact ih hrest hmore harest hbrest hpast _
    · rw [if_neg hpast]
      by_cases hstop : e.range.stop ≤ b
      · have hle := le_shiftFrom e.range.stop
          (moved + (e.range.start - base) + (Utf8.encode e.replacement).length) rest b
        rw [if_pos hstop]
        omega
      · rw [if_neg hstop]
        omega

/-! ### Undoing -/

/-- The edit that takes another one back, where `old` stood before. -/
def undone (place : Nat → Nat) (old : String) (e : TextEdit) : TextEdit :=
  ⟨⟨place e.range.start, place e.range.start + (Utf8.encode e.replacement).length,
    Nat.le_add_right ..⟩, old⟩

/-- The first edit, of which the range is one of three pieces. -/
theorem spliceFrom_cons_append {base : Nat} {e : TextEdit} (p v rest : Bytes)
    (hstart : e.range.start = base + p.length) (hstop : e.range.stop = e.range.start + v.length)
    (edits : List TextEdit) :
    spliceFrom base (p ++ v ++ rest) (e :: edits) =
      p ++ Utf8.encode e.replacement ++ spliceFrom e.range.stop rest edits := by
  have hbefore : e.range.start - base = p.length := by omega
  have hafter : e.range.stop - base = (p ++ v).length := by
    rw [List.length_append]
    omega
  rw [spliceFrom_cons, hbefore, hafter, List.drop_left, List.append_assoc p v, List.take_left]

/-- Edits that replaced the same bytes everywhere are taken back by writing these
bytes at the new places. -/
theorem spliceFrom_undone {base : Nat} {edits : List TextEdit} {old : String} (s : Bytes)
    (h : Within base (base + s.length) edits)
    (hold : ∀ e ∈ edits, (s.drop (e.range.start - base)).take (e.range.stop - e.range.start) =
      Utf8.encode old) (moved : Nat) :
    spliceFrom moved (spliceFrom base s edits)
      (edits.map (undone (shiftFrom base moved edits) old)) = s := by
  induction edits generalizing base s moved with
  | nil => rfl
  | cons e rest ih =>
    have hlength := h.length_drop
    obtain ⟨hstart, hrange, hrest⟩ := h
    have hle := hrest.le
    obtain ⟨hhere, hlater⟩ := List.forall_mem_cons.mp hold
    have hfirst : shiftFrom base moved (e :: rest) e.range.start =
        moved + (e.range.start - base) := by
      rw [shiftFrom_cons, if_neg (by omega)]
    have hmap : rest.map (undone (shiftFrom base moved (e :: rest)) old) =
        rest.map (undone (shiftFrom e.range.stop
          (moved + (e.range.start - base) + (Utf8.encode e.replacement).length) rest) old) := by
      apply List.map_congr_left
      intro d hd
      have hplace : shiftFrom base moved (e :: rest) d.range.start = shiftFrom e.range.stop
          (moved + (e.range.start - base) + (Utf8.encode e.replacement).length) rest
          d.range.start := if_pos (hrest.base_le d hd)
      simp only [undone, hplace]
    have hrestored := ih (s.drop (e.range.stop - base)) (hlength ▸ hrest) (fun d hd => by
        have hbase := hrest.base_le d hd
        rw [List.drop_drop, ← hlater d hd]
        congr 2
        omega) (moved + (e.range.start - base) + (Utf8.encode e.replacement).length)
    have hbefore : (s.take (e.range.start - base)).length = e.range.start - base := by
      rw [List.length_take]
      omega
    have hplaced : (undone (shiftFrom base moved (e :: rest)) old e).range.start =
        moved + (s.take (e.range.start - base)).length := by
      rw [hbefore]
      exact hfirst
    have hend : (undone (shiftFrom base moved (e :: rest)) old e).range.stop =
        moved + (e.range.start - base) + (Utf8.encode e.replacement).length :=
      congrArg (· + (Utf8.encode e.replacement).length) hfirst
    have hafter : e.range.stop - base =
        e.range.start - base + (e.range.stop - e.range.start) := by omega
    calc spliceFrom moved (spliceFrom base s (e :: rest))
          ((e :: rest).map (undone (shiftFrom base moved (e :: rest)) old))
        = s.take (e.range.start - base) ++ Utf8.encode old ++ s.drop (e.range.stop - base) := by
          rw [List.map_cons, hmap, spliceFrom_cons base, spliceFrom_cons_append _ _ _ hplaced rfl, hend,
            hrestored]
          rfl
      _ = s := by
          rw [← hhere, hafter, ← List.drop_drop, List.append_assoc, List.take_append_drop,
            List.take_append_drop]

end RenameServer.Splice
