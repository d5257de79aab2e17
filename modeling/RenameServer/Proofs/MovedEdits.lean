import Mathlib.Order.Monotone.Basic
import RenameServer.Proofs.Grouping

/-!
Edits of one document at other offsets. Grouping compares ranges and asks only
which offset comes first, so edits whose offsets are moved in the same order end
up in the same groups, at the same places in them, and exclude each other exactly
if they did before.
-/
namespace RenameServer

variable {f : Nat → Nat} (hf : StrictMono f)

namespace ByteRange

def moved (r : ByteRange) : ByteRange :=
  ⟨f r.start, f r.stop, hf.monotone r.start_le_stop⟩

theorem moved_inj {a b : ByteRange} : a.moved hf = b.moved hf ↔ a = b := by
  obtain ⟨start, stop, _⟩ := a
  obtain ⟨start', stop', _⟩ := b
  simp only [moved, ByteRange.mk.injEq, hf.injective.eq_iff]

theorem overlaps_moved (a b : ByteRange) : (a.moved hf).overlaps (b.moved hf) = a.overlaps b := by
  have hfirst : (a.moved hf).start < (b.moved hf).stop ↔ a.start < b.stop := hf.lt_iff_lt
  have hsecond : (b.moved hf).start < (a.moved hf).stop ↔ b.start < a.stop := hf.lt_iff_lt
  simp only [overlaps, moved_inj, hfirst, hsecond]

theorem precedes_moved (a b : ByteRange) : (a.moved hf).precedes (b.moved hf) = a.precedes b := by
  have hlt : (a.moved hf).start < (b.moved hf).start ↔ a.start < b.start := hf.lt_iff_lt
  have heq : (a.moved hf).start = (b.moved hf).start ↔ a.start = b.start := hf.injective.eq_iff
  have hle : (a.moved hf).stop ≤ (b.moved hf).stop ↔ a.stop ≤ b.stop := hf.le_iff_le
  simp only [precedes, hlt, heq, hle]

end ByteRange

def TextEdit.moved (e : TextEdit) : TextEdit := ⟨e.range.moved hf, e.replacement⟩

theorem TextEdit.moved_inj {a b : TextEdit} : a.moved hf = b.moved hf ↔ a = b := by
  obtain ⟨range, replacement⟩ := a
  obtain ⟨range', replacement'⟩ := b
  simp only [moved, TextEdit.mk.injEq, ByteRange.moved_inj]

namespace EditGroup

def moved (g : EditGroup) : EditGroup :=
  ⟨g.uri, g.edits.map (TextEdit.moved hf), g.sorted.map (TextEdit.moved hf)⟩

theorem place_moved (sorted : List TextEdit) (e : TextEdit) :
    place (sorted.map (TextEdit.moved hf)) (e.moved hf) = place sorted e := by
  have hprecedes : ((fun other : TextEdit => other.range.precedes (e.moved hf).range) ∘
      TextEdit.moved hf) = fun other => other.range.precedes e.range :=
    funext fun other => ByteRange.precedes_moved hf other.range e.range
  rw [place, place, List.takeWhile_map, hprecedes, List.length_map]

theorem neighbours_moved (sorted : List TextEdit) (i : Nat) :
    neighbours (sorted.map (TextEdit.moved hf)) i =
      (neighbours sorted i).map (TextEdit.moved hf) := by
  rw [neighbours, neighbours, ← List.map_drop, ← List.map_take]

def Verdict.moved : Verdict → Verdict
  | .present => .present
  | .conflict other => .conflict (other.moved hf)
  | .free => .free

theorem verdict_moved (e : TextEdit) (others : List TextEdit) :
    verdict (e.moved hf) (others.map (TextEdit.moved hf)) = (verdict e others).moved hf := by
  induction others with
  | nil => rfl
  | cons other more ih =>
    have hoverlaps : (other.moved hf).range.overlaps (e.moved hf).range =
        other.range.overlaps e.range := ByteRange.overlaps_moved hf other.range e.range
    rw [List.map_cons, verdict, verdict, hoverlaps, ih]
    simp only [TextEdit.moved_inj]
    split
    · rfl
    · split <;> rfl

/-- A group takes a moved edit if it took the edit. -/
theorem add_moved (g : EditGroup) (e : TextEdit) :
    ((g.moved hf).add (e.moved hf)).toOption = (g.add e).toOption.map (moved hf) := by
  have hverdict := verdict_moved hf e (neighbours g.sorted (place g.sorted e))
  rw [← neighbours_moved] at hverdict
  simp only [add, moved, place_moved, hverdict]
  cases verdict e (neighbours g.sorted (place g.sorted e)) with
  | present => rfl
  | conflict other => rfl
  | free => simp [Verdict.moved, Except.toOption, moved, List.map_take, List.map_drop]

end EditGroup

theorem toOption_map {ε α β : Type} (g : α → β) (x : Except ε α) :
    (x.map g).toOption = x.toOption.map g := by
  cases x <;> rfl

theorem toOption_mapError {ε ε' α : Type} (g : ε → ε') (x : Except ε α) :
    (x.mapError g).toOption = x.toOption := by
  cases x <;> rfl

theorem toOption_bind {ε α β : Type} (x : Except ε α) (g : α → Except ε β) :
    (x >>= g).toOption = x.toOption.bind fun a => (g a).toOption := by
  cases x <;> rfl

/-- An edit with the offsets of one document moved. -/
def LocatedEdit.movedAt (u : String) (e : LocatedEdit) : LocatedEdit :=
  if e.uri.same (.str u) then ⟨e.uri, e.range.moved hf, e.replacement⟩ else e

/-- A group with the offsets of one document moved. -/
def EditGroup.movedAt (u : String) (g : EditGroup) : EditGroup :=
  if g.uri.same (.str u) then g.moved hf else g

section

variable {u : String}

theorem LocatedEdit.movedAt_same {e : LocatedEdit} (h : e.uri = .str u) :
    e.movedAt hf u = ⟨.str u, e.range.moved hf, e.replacement⟩ := by
  rw [movedAt, if_pos (Json.same_str.mpr h), h]

theorem LocatedEdit.movedAt_other {e : LocatedEdit} (h : e.uri ≠ .str u) :
    e.movedAt hf u = e := if_neg (mt Json.same_str.mp h)

theorem LocatedEdit.uri_movedAt (e : LocatedEdit) : (e.movedAt hf u).uri = e.uri := by
  unfold movedAt
  split <;> rfl

theorem EditGroup.movedAt_same {g : EditGroup} (h : g.uri = .str u) :
    g.movedAt hf u = g.moved hf := if_pos (Json.same_str.mpr h)

theorem EditGroup.movedAt_other {g : EditGroup} (h : g.uri ≠ .str u) :
    g.movedAt hf u = g := if_neg (mt Json.same_str.mp h)

theorem EditGroup.uri_movedAt (g : EditGroup) : (g.movedAt hf u).uri = g.uri := by
  unfold movedAt
  split <;> rfl

/-- A group and an edit of the same document. -/
theorem EditGroup.add_movedAt {g : EditGroup} {e : LocatedEdit} (h : g.uri.sameKey e.uri = true) :
    ((g.movedAt hf u).add (e.movedAt hf u).textEdit).toOption =
      (g.add e.textEdit).toOption.map (movedAt hf u) := by
  by_cases hu : e.uri = .str u
  · have hg : g.uri = .str u := by
      rw [hu] at h
      exact Json.sameKey_str.mp h
    have hadd := add_moved hf g e.textEdit
    rw [movedAt_same hf hg, LocatedEdit.movedAt_same hf hu]
    refine hadd.trans ?_
    cases hresult : g.add e.textEdit with
    | error conflict => rfl
    | ok g' => exact congrArg some (movedAt_same hf (uri_of_add hresult ▸ hg)).symm
  · have hg : g.uri ≠ .str u := by
      intro hg
      rw [hg] at h
      exact hu (Json.str_sameKey.mp h)
    rw [movedAt_other hf hg, LocatedEdit.movedAt_other hf hu]
    cases hresult : g.add e.textEdit with
    | error conflict => rfl
    | ok g' => exact congrArg some (movedAt_other hf (uri_of_add hresult ▸ hg)).symm

end

namespace EditMap

def movedAt (u : String) (map : EditMap) : EditMap := ⟨map.groups.map (EditGroup.movedAt hf u)⟩

variable {u : String}

theorem addTo_movedAt (e : LocatedEdit) (groups : List EditGroup) :
    (addTo e.uri (e.movedAt hf u).textEdit (groups.map (EditGroup.movedAt hf u))).toOption =
      (addTo e.uri e.textEdit groups).toOption.map (List.map (EditGroup.movedAt hf u)) := by
  induction groups with
  | nil =>
    by_cases hu : e.uri = .str u
    · have hfirst := EditGroup.movedAt_same hf (g := ⟨e.uri, [e.textEdit], [e.textEdit]⟩) hu
      rw [LocatedEdit.movedAt_same hf hu]
      exact congrArg (fun g => some [g]) hfirst.symm
    · have hfirst := EditGroup.movedAt_other hf (g := ⟨e.uri, [e.textEdit], [e.textEdit]⟩) hu
      rw [LocatedEdit.movedAt_other hf hu]
      exact congrArg (fun g => some [g]) hfirst.symm
  | cons g rest ih =>
    rw [List.map_cons, addTo, addTo, EditGroup.uri_movedAt]
    by_cases hg : g.uri.sameKey e.uri = true
    · rw [if_pos hg, if_pos hg, toOption_map, toOption_map, toOption_mapError, toOption_mapError,
        EditGroup.add_movedAt hf hg, Option.map_map, Option.map_map]
      rfl
    · rw [if_neg hg, if_neg hg, toOption_map, toOption_map, ih, Option.map_map,
        Option.map_map]
      rfl

theorem add_movedAt (map : EditMap) (e : LocatedEdit) :
    ((map.movedAt hf u).add (e.movedAt hf u)).toOption =
      (map.add e).toOption.map (movedAt hf u) := by
  rw [add, add, toOption_map, toOption_map, LocatedEdit.uri_movedAt]
  have haddTo := addTo_movedAt (u := u) hf e map.groups
  rw [movedAt, haddTo, Option.map_map, Option.map_map]
  rfl

/-- Moved edits are grouped as the edits are. -/
theorem foldlM_movedAt (es : List LocatedEdit) (map : EditMap) :
    ((es.map (LocatedEdit.movedAt hf u)).foldlM add (map.movedAt hf u)).toOption =
      (es.foldlM add map).toOption.map (movedAt hf u) := by
  induction es generalizing map with
  | nil => rfl
  | cons e rest ih =>
    rw [List.map_cons, List.foldlM_cons, List.foldlM_cons, toOption_bind, toOption_bind,
      add_movedAt]
    cases map.add e with
    | error conflict => rfl
    | ok next => exact ih next

/-- Edits of another document meet the same groups. -/
theorem addTo_movedAt_other {uri : Json} (hu : uri ≠ .str u) (t : TextEdit)
    (groups : List EditGroup) :
    addTo uri t (groups.map (EditGroup.movedAt hf u)) =
      (addTo uri t groups).map (List.map (EditGroup.movedAt hf u)) := by
  induction groups with
  | nil =>
    have hfirst := EditGroup.movedAt_other hf (g := ⟨uri, [t], [t]⟩) hu
    exact congrArg (fun g => Except.ok [g]) hfirst.symm
  | cons g rest ih =>
    rw [List.map_cons, addTo, addTo, EditGroup.uri_movedAt]
    by_cases hg : g.uri.sameKey uri = true
    · have hgu : g.uri ≠ .str u := by
        intro hgu
        rw [hgu] at hg
        exact hu (Json.str_sameKey.mp hg)
      rw [if_pos hg, if_pos hg, EditGroup.movedAt_other hf hgu]
      cases hadd : g.add t with
      | error other => rfl
      | ok g' =>
        have hg' := EditGroup.movedAt_other hf (EditGroup.uri_of_add hadd ▸ hgu)
        exact congrArg (fun g => Except.ok (g :: rest.map (EditGroup.movedAt hf u))) hg'.symm
    · rw [if_neg hg, if_neg hg, ih]
      cases addTo uri t rest <;> rfl

theorem uri_of_addTo_error {uri : Json} {t : TextEdit} {groups : List EditGroup} {c : Conflict}
    (h : addTo uri t groups = .error c) : c.uri = uri := by
  induction groups with
  | nil => cases h
  | cons g rest ih =>
    rw [addTo] at h
    split at h
    · cases hadd : g.add t with
      | error other =>
        rw [hadd] at h
        obtain rfl := Except.error.inj h
        rfl
      | ok g' =>
        rw [hadd] at h
        cases h
    · cases hrest : addTo uri t rest with
      | error c' =>
        rw [hrest] at h
        obtain rfl := Except.error.inj h
        exact ih hrest
      | ok groups =>
        rw [hrest] at h
        cases h

theorem uri_of_add_error {map : EditMap} {e : LocatedEdit} {c : Conflict}
    (h : map.add e = .error c) : c.uri = e.uri := by
  rw [add] at h
  cases haddTo : addTo e.uri e.textEdit map.groups with
  | error c' =>
    rw [haddTo] at h
    obtain rfl := Except.error.inj h
    exact uri_of_addTo_error haddTo
  | ok groups =>
    rw [haddTo] at h
    cases h

/-- A conflict of moved edits is the same one, or both are in the document with the moved
offsets. -/
theorem conflict_movedAt {es : List LocatedEdit} {map : EditMap} {c c' : Conflict}
    (h : es.foldlM add map = .error c)
    (h' : (es.map (LocatedEdit.movedAt hf u)).foldlM add (map.movedAt hf u) = .error c') :
    c' = c ∨ c.uri = .str u ∧ c'.uri = .str u := by
  induction es generalizing map with
  | nil => cases h
  | cons e rest ih =>
    rw [List.foldlM_cons] at h
    rw [List.map_cons, List.foldlM_cons] at h'
    have hmoved := add_movedAt (u := u) hf map e
    cases hadd : map.add e with
    | ok next =>
      rw [hadd] at h hmoved
      cases hadd' : (map.movedAt hf u).add (e.movedAt hf u) with
      | ok next' =>
        rw [hadd'] at h' hmoved
        obtain rfl := Option.some.inj hmoved
        exact ih h h'
      | error c'' =>
        rw [hadd'] at hmoved
        cases hmoved
    | error first =>
      rw [hadd] at h hmoved
      obtain rfl := Except.error.inj h
      cases hadd' : (map.movedAt hf u).add (e.movedAt hf u) with
      | ok next' =>
        rw [hadd'] at hmoved
        cases hmoved
      | error second =>
        rw [hadd'] at h'
        obtain rfl := Except.error.inj h'
        by_cases hu : e.uri = .str u
        · refine .inr ⟨(uri_of_add_error hadd).trans hu, (uri_of_add_error hadd').trans ?_⟩
          rw [LocatedEdit.uri_movedAt, hu]
        · rw [LocatedEdit.movedAt_other hf hu, add, movedAt, addTo_movedAt_other hf hu] at hadd'
          rw [add] at hadd
          cases haddTo : addTo e.uri e.textEdit map.groups with
          | ok groups =>
            rw [haddTo] at hadd
            cases hadd
          | error c =>
            rw [haddTo] at hadd hadd'
            exact .inl (Except.error.inj (hadd'.symm.trans hadd))

end EditMap

end RenameServer
