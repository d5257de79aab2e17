import Mathlib.Data.List.TakeWhile
import Mathlib.Data.List.Pairwise
import Mathlib.Data.List.Perm.Basic
import RenameServer.Edit.Map

/-!
Why two neighbours are enough. Ranges that do not overlap lie one before the
other, and lying before is a strict order, also with empty ranges among them. In
a list in this order a new range can only meet the last range that precedes it
or the first that follows it, so that adding an edit after a look at these two
does what a look at all of them would do.
-/
namespace RenameServer

namespace ByteRange

/-- One range ends where the other starts or earlier, and they are not the same
empty range. -/
def Before (a b : ByteRange) : Prop := a.stop ≤ b.start ∧ a ≠ b

theorem eq_iff {a b : ByteRange} : a = b ↔ a.start = b.start ∧ a.stop = b.stop := by
  obtain ⟨s, t, h⟩ := a
  obtain ⟨s', t', h'⟩ := b
  simp

theorem precedes_iff {a b : ByteRange} :
    a.precedes b = true ↔ a.start < b.start ∨ a.start = b.start ∧ a.stop ≤ b.stop :=
  decide_eq_true_iff

theorem overlaps_iff {a b : ByteRange} :
    a.overlaps b = true ↔ a = b ∨ a.start < b.stop ∧ b.start < a.stop :=
  decide_eq_true_iff

theorem overlaps_self (a : ByteRange) : a.overlaps a = true := overlaps_iff.mpr (.inl rfl)

theorem overlaps_comm (a b : ByteRange) : a.overlaps b = b.overlaps a := by
  rw [Bool.eq_iff_iff, overlaps_iff, overlaps_iff, eq_comm]
  constructor <;> rintro (h | ⟨h, h'⟩)
  all_goals first | exact .inl h | exact .inr ⟨h', h⟩

/-- Ranges overlap unless one of them lies before the other. -/
theorem overlaps_eq_false_iff {a b : ByteRange} :
    a.overlaps b = false ↔ a.Before b ∨ b.Before a := by
  have hle := a.start_le_stop
  have hle' := b.start_le_stop
  rw [← Bool.not_eq_true, overlaps_iff, Before, Before, Ne, Ne, @eq_comm _ b a, eq_iff]
  omega

theorem Before.trans {a b c : ByteRange} (h : a.Before b) (h' : b.Before c) : a.Before c := by
  have ha := a.start_le_stop
  have hb := b.start_le_stop
  unfold Before at *
  rw [Ne, eq_iff] at *
  omega

theorem Before.precedes {a b : ByteRange} (h : a.Before b) : a.precedes b = true := by
  have ha := a.start_le_stop
  have hb := b.start_le_stop
  have hstop := h.1
  rw [precedes_iff]
  omega

/-- What lies before a range that precedes another one precedes that one too. -/
theorem Before.precedes_trans {a b c : ByteRange} (h : a.Before b) (h' : b.precedes c = true) :
    a.precedes c = true := by
  have hfirst := precedes_iff.mp h.precedes
  rw [precedes_iff] at *
  omega

/-- Between two ranges of which the later one precedes a third, only the later
one can meet the third. -/
theorem Before.overlaps_eq_false {a b c : ByteRange} (h : a.Before b)
    (h' : b.precedes c = true) : a.overlaps c = false := by
  have ha := a.start_le_stop
  have hb := b.start_le_stop
  have hc := c.start_le_stop
  obtain ⟨hstop, hne⟩ := h
  rw [precedes_iff] at h'
  rw [overlaps_eq_false_iff]
  left
  refine ⟨by omega, ?_⟩
  rintro rfl
  rw [Ne, eq_iff] at hne
  omega

/-- If a range follows another one and meets a third that does not follow either,
then the other one meets the third already. -/
theorem Before.overlaps_of_overlaps {a b c : ByteRange} (h : a.Before b)
    (h' : ¬ a.precedes c = true) (hoverlaps : b.overlaps c = true) : a.overlaps c = true := by
  have ha := a.start_le_stop
  have hb := b.start_le_stop
  have hc := c.start_le_stop
  obtain ⟨hstop, hne⟩ := h
  rw [precedes_iff] at h'
  rw [overlaps_iff] at *
  rw [Ne, eq_iff] at hne
  rw [eq_iff] at *
  omega

end ByteRange

namespace EditGroup

/-- Edits in the order of their ranges, none of which overlap. -/
def Orderly (sorted : List TextEdit) : Prop :=
  sorted.Pairwise fun a b => a.range.Before b.range

/-- The edits up to the place of a new edit and those behind it. -/
theorem exists_cut {sorted : List TextEdit} (h : Orderly sorted) (e : TextEdit) :
    ∃ front back, sorted = front ++ back ∧ place sorted e = front.length ∧
      (∀ d ∈ front, d.range.precedes e.range = true) ∧
      ∀ d ∈ back, ¬ d.range.precedes e.range = true := by
  refine ⟨sorted.takeWhile fun d => d.range.precedes e.range,
    sorted.dropWhile fun d => d.range.precedes e.range, ?_, rfl, ?_, ?_⟩
  · rw [List.takeWhile_append_dropWhile]
  · intro d hd
    exact List.mem_takeWhile_imp (p := fun d : TextEdit => d.range.precedes e.range) hd
  · have hback : Orderly (sorted.dropWhile fun d => d.range.precedes e.range) :=
      h.sublist (List.dropWhile_sublist _)
    cases hcut : sorted.dropWhile fun d => d.range.precedes e.range with
    | nil => exact List.forall_mem_nil _
    | cons first rest =>
      have hfirst : ¬ first.range.precedes e.range = true := by
        have hhead := List.head?_dropWhile_not (fun d : TextEdit => d.range.precedes e.range) sorted
        rw [hcut] at hhead
        simpa using hhead
      rw [hcut] at hback
      intro d hd
      rcases List.mem_cons.mp hd with rfl | hd
      · exact hfirst
      · -- the first one lies before the others, and would precede the new edit with them
        intro hprecedes
        have hbefore := List.rel_of_pairwise_cons hback hd
        exact hfirst (hbefore.precedes_trans hprecedes)

/-- The neighbours of a place are the last edit before it and the first behind it. -/
theorem neighbours_append (front back : List TextEdit) :
    neighbours (front ++ back) front.length = front.getLast?.toList ++ back.head?.toList := by
  rcases List.eq_nil_or_concat' front with rfl | ⟨init, last, rfl⟩
  · cases back <;> rfl
  · have hlength : (init ++ [last]).length - 1 = init.length := by simp
    rw [neighbours, hlength, List.append_assoc, List.drop_left]
    have hcount : (init ++ [last]).length + 1 - init.length = 2 := by
      rw [List.length_append, List.length_singleton]
      omega
    rw [hcount, List.getLast?_concat]
    cases back <;> rfl

/-- An edit that meets any other one meets a neighbour. -/
theorem exists_neighbour {sorted : List TextEdit} (h : Orderly sorted) {d e : TextEdit}
    (hd : d ∈ sorted) (hoverlaps : d.range.overlaps e.range = true) :
    ∃ n ∈ neighbours sorted (place sorted e), n.range.overlaps e.range = true := by
  obtain ⟨front, back, rfl, hplace, hfront, hback⟩ := exists_cut h e
  rw [hplace, neighbours_append]
  rcases List.mem_append.mp hd with hd | hd
  · obtain ⟨init, last, rfl⟩ := (List.eq_nil_or_concat' front).resolve_left (List.ne_nil_of_mem hd)
    refine ⟨last, by simp, ?_⟩
    rcases List.mem_append.mp hd with hd | hd
    · have hbefore : d.range.Before last.range :=
        (List.pairwise_append.mp (List.pairwise_append.mp h).1).2.2 d hd last (by simp)
      have hapart := hbefore.overlaps_eq_false (hfront last (by simp))
      rw [hapart] at hoverlaps
      cases hoverlaps
    · rwa [List.mem_singleton.mp hd] at hoverlaps
  · cases back with
    | nil => cases hd
    | cons first rest =>
      refine ⟨first, by simp, ?_⟩
      rcases List.mem_cons.mp hd with rfl | hd
      · exact hoverlaps
      · have hbefore : first.range.Before d.range :=
          List.rel_of_pairwise_cons (List.pairwise_append.mp h).2.1 hd
        exact hbefore.overlaps_of_overlaps (hback first (by simp)) hoverlaps

theorem Orderly.apart {sorted : List TextEdit} (h : Orderly sorted) {d e : TextEdit}
    (hd : d ∈ sorted) (he : e ∈ sorted) (hne : d ≠ e) : d.range.overlaps e.range = false := by
  have hsymm : Std.Symm fun a b : TextEdit => a.range.overlaps b.range = false :=
    ⟨fun a b hab => by rwa [ByteRange.overlaps_comm]⟩
  have hpairs : sorted.Pairwise fun a b => a.range.overlaps b.range = false :=
    h.imp fun hbefore => ByteRange.overlaps_eq_false_iff.mpr (.inl hbefore)
  exact hpairs.forall hd he hne

theorem verdict_cases (e : TextEdit) (others : List TextEdit) :
    (e ∈ others ∧ verdict e others = .present) ∨
      (∃ d ∈ others, d ≠ e ∧ d.range.overlaps e.range = true ∧
        verdict e others = .conflict d) ∨
      ((∀ d ∈ others, d.range.overlaps e.range = false) ∧ verdict e others = .free) := by
  induction others with
  | nil => exact .inr (.inr ⟨List.forall_mem_nil _, rfl⟩)
  | cons first rest ih =>
    rw [verdict]
    by_cases hsame : first = e
    · subst hsame
      exact .inl ⟨List.mem_cons_self .., if_pos rfl⟩
    · rw [if_neg hsame]
      by_cases hoverlaps : first.range.overlaps e.range = true
      · rw [if_pos hoverlaps]
        exact .inr (.inl ⟨first, List.mem_cons_self .., hsame, hoverlaps, rfl⟩)
      · rw [if_neg hoverlaps]
        rcases ih with ⟨hmem, hv⟩ | ⟨d, hd, hne, hmeets, hv⟩ | ⟨hfree, hv⟩
        · exact .inl ⟨List.mem_cons_of_mem _ hmem, hv⟩
        · exact .inr (.inl ⟨d, List.mem_cons_of_mem _ hd, hne, hmeets, hv⟩)
        · exact .inr (.inr ⟨List.forall_mem_cons.mpr ⟨by simpa using hoverlaps, hfree⟩, hv⟩)

/-- What the neighbours say is what all edits would say. -/
theorem Orderly.verdict_cases {sorted : List TextEdit} (h : Orderly sorted) (e : TextEdit) :
    let v := verdict e (neighbours sorted (place sorted e))
    (e ∈ sorted ∧ v = .present) ∨
      (e ∉ sorted ∧ ∃ d ∈ sorted, d.range.overlaps e.range = true ∧ v = .conflict d) ∨
      ((∀ d ∈ sorted, d.range.overlaps e.range = false) ∧ v = .free) := by
  intro v
  have hsub : ∀ n ∈ neighbours sorted (place sorted e), n ∈ sorted := fun n hn =>
    List.mem_of_mem_drop (List.mem_of_mem_take hn)
  rcases EditGroup.verdict_cases e (neighbours sorted (place sorted e)) with
    ⟨hmem, hv⟩ | ⟨d, hd, hne, hoverlaps, hv⟩ | ⟨hfree, hv⟩
  · exact .inl ⟨hsub e hmem, hv⟩
  · refine .inr (.inl ⟨fun hmem => ?_, d, hsub d hd, hoverlaps, hv⟩)
    have hapart := h.apart (hsub d hd) hmem hne
    rw [hapart] at hoverlaps
    cases hoverlaps
  · refine .inr (.inr ⟨fun d hd => ?_, hv⟩)
    rw [← Bool.not_eq_true]
    intro hoverlaps
    obtain ⟨n, hn, hmeets⟩ := exists_neighbour h hd hoverlaps
    rw [hfree n hn] at hmeets
    cases hmeets

/-- An edit that meets no other one can be put in its place. -/
theorem Orderly.insert {sorted : List TextEdit} (h : Orderly sorted) {e : TextEdit}
    (hfree : ∀ d ∈ sorted, d.range.overlaps e.range = false) :
    Orderly (sorted.take (place sorted e) ++ e :: sorted.drop (place sorted e)) := by
  obtain ⟨front, back, rfl, hplace, hfront, hback⟩ := exists_cut h e
  obtain ⟨hpre, hpost, hcross⟩ := List.pairwise_append.mp h
  rw [hplace, List.take_left, List.drop_left]
  have hbefore : ∀ d ∈ front, d.range.Before e.range := by
    intro d hd
    have hapart := hfree d (List.mem_append_left _ hd)
    have hprecedes := ByteRange.precedes_iff.mp (hfront d hd)
    rcases ByteRange.overlaps_eq_false_iff.mp hapart with hbefore | ⟨hstop, hne⟩
    · exact hbefore
    · have hd := d.range.start_le_stop
      have he := e.range.start_le_stop
      rw [Ne, ByteRange.eq_iff] at hne
      omega
  have hbehind : ∀ d ∈ back, e.range.Before d.range := by
    intro d hd
    have hapart := hfree d (List.mem_append_right _ hd)
    rcases ByteRange.overlaps_eq_false_iff.mp hapart with hbefore | hbehind
    · exact absurd hbefore.precedes (hback d hd)
    · exact hbehind
  refine List.pairwise_append.mpr ⟨hpre, List.pairwise_cons.mpr ⟨hbehind, hpost⟩, ?_⟩
  intro d hd d' hd'
  rcases List.mem_cons.mp hd' with rfl | hd'
  · exact hbefore d hd
  · exact hcross d hd d' hd'

/-- A group whose sorted list holds its edits in order and apart. -/
structure Sound (g : EditGroup) : Prop where
  orderly : Orderly g.sorted
  perm : g.sorted.Perm g.edits

theorem sound_singleton (uri : Json) (e : TextEdit) : Sound ⟨uri, [e], [e]⟩ :=
  ⟨List.pairwise_singleton _ _, .refl _⟩

theorem Sound.apart {g : EditGroup} (h : g.Sound) {d e : TextEdit} (hd : d ∈ g.edits)
    (he : e ∈ g.edits) (hne : d ≠ e) : d.range.overlaps e.range = false :=
  h.orderly.apart (h.perm.mem_iff.mpr hd) (h.perm.mem_iff.mpr he) hne

/-- Adding an edit: it is there already, one that is there excludes it, or it is
apart from all that are there and comes last. -/
theorem Sound.add_cases {g : EditGroup} (h : g.Sound) (e : TextEdit) :
    (e ∈ g.edits ∧ g.add e = .ok g) ∨
      (e ∉ g.edits ∧ ∃ d ∈ g.edits, d.range.overlaps e.range = true ∧ g.add e = .error d) ∨
      ((∀ d ∈ g.edits, d.range.overlaps e.range = false) ∧
        ∃ g', g.add e = .ok g' ∧ g'.Sound ∧ g'.uri = g.uri ∧ g'.edits = g.edits ++ [e]) := by
  have hmem : ∀ d, d ∈ g.edits ↔ d ∈ g.sorted := fun d => h.perm.mem_iff.symm
  simp only [hmem]
  rcases h.orderly.verdict_cases e with ⟨he, hv⟩ | ⟨he, d, hd, hoverlaps, hv⟩ | ⟨hfree, hv⟩
  · exact .inl ⟨he, by simp only [add, hv]⟩
  · exact .inr (.inl ⟨he, d, hd, hoverlaps, by simp only [add, hv]⟩)
  · refine .inr (.inr ⟨hfree,
      ⟨g.uri, g.edits ++ [e],
        g.sorted.take (place g.sorted e) ++ e :: g.sorted.drop (place g.sorted e)⟩,
      by simp only [add, hv], ⟨h.orderly.insert hfree, ?_⟩, rfl, rfl⟩)
    have hmiddle : (g.sorted.take (place g.sorted e) ++ e :: g.sorted.drop (place g.sorted e)).Perm
        (e :: g.sorted) := by
      have hperm := @List.perm_middle _ e (g.sorted.take (place g.sorted e))
        (g.sorted.drop (place g.sorted e))
      rwa [List.take_append_drop] at hperm
    exact hmiddle.trans ((h.perm.cons e).trans (List.perm_append_singleton e g.edits).symm)

end EditGroup

end RenameServer
