import RenameServer.Edit.Map
import RenameServer.Proofs.Strategies

/-!
Grouping edits that come in order. When the edits of a document arrive from its
start to its end and apart from each other, none of them meets a neighbour that
objects, so the group of the document holds exactly them, in their order. What
other documents get makes no difference.
-/
namespace RenameServer

open Splice

theorem ok_of_mapError {ε ε' α : Type} {x : Except ε α} {f : ε → ε'} {a : α}
    (h : x.mapError f = .ok a) : x = .ok a := by
  cases x with
  | error e => cases h
  | ok b => exact congrArg Except.ok (Except.ok.inj h)

namespace EditGroup

theorem uri_of_add {g g' : EditGroup} {e : TextEdit} (h : g.add e = .ok g') : g'.uri = g.uri := by
  rw [add] at h
  split at h
  · cases h; rfl
  · cases h
  · cases h; rfl

theorem verdict_free {e : TextEdit} {others : List TextEdit}
    (h : ∀ d ∈ others, d.range.start < d.range.stop ∧ d.range.stop ≤ e.range.start) :
    verdict e others = .free := by
  induction others with
  | nil => rfl
  | cons d more ih =>
    obtain ⟨hrange, hbefore⟩ := h d (List.mem_cons_self ..)
    have hne : d ≠ e := by
      rintro rfl
      omega
    have hapart : d.range.overlaps e.range ≠ true := by
      intro hoverlap
      rcases of_decide_eq_true hoverlap with heq | ⟨-, hlt⟩
      · rw [heq] at hrange hbefore
        omega
      · omega
    rw [verdict, if_neg hne, if_neg hapart, ih fun d hd => h d (List.mem_cons_of_mem _ hd)]

/-- An edit behind all others comes last. -/
theorem add_last {uri : Json} {es : List TextEdit} {e : TextEdit}
    (h : ∀ d ∈ es, d.range.start < d.range.stop ∧ d.range.stop ≤ e.range.start) :
    add ⟨uri, es, es⟩ e = .ok ⟨uri, es ++ [e], es ++ [e]⟩ := by
  have hplace : place es e = es.length := by
    have hall : ∀ d ∈ es, d.range.precedes e.range = true := by
      intro d hd
      have := h d hd
      simp only [ByteRange.precedes, decide_eq_true_eq]
      omega
    have htake := @List.takeWhile_append_of_pos _ _ es [] hall
    rw [List.append_nil, List.takeWhile_nil, List.append_nil] at htake
    rw [place, htake]
  have hfree : verdict e (neighbours es es.length) = .free :=
    verdict_free fun d hd => h d (List.mem_of_mem_drop (List.mem_of_mem_take hd))
  simp only [add, hplace, hfree, List.take_length, List.drop_length]

end EditGroup

namespace EditMap

/-- The groups of one document. -/
def groupsAt (u : String) (groups : List EditGroup) : List EditGroup :=
  groups.filter fun g => g.uri.sameKey (.str u)

theorem groupsAt_cons_same {u : String} {g : EditGroup} (h : g.uri = .str u)
    (rest : List EditGroup) : groupsAt u (g :: rest) = g :: groupsAt u rest :=
  List.filter_cons_of_pos (Json.sameKey_str.mpr h)

theorem groupsAt_cons_other {u : String} {g : EditGroup} (h : g.uri ≠ .str u)
    (rest : List EditGroup) : groupsAt u (g :: rest) = groupsAt u rest :=
  List.filter_cons_of_neg (mt Json.sameKey_str.mp h)

/-- An edit of another document leaves the groups of this one alone. -/
theorem groupsAt_addTo_other {u : String} {uri : Json} (hu : uri ≠ .str u) {e : TextEdit}
    {groups groups' : List EditGroup} (h : addTo uri e groups = .ok groups') :
    groupsAt u groups' = groupsAt u groups := by
  induction groups generalizing groups' with
  | nil =>
    cases h
    exact groupsAt_cons_other hu []
  | cons g rest ih =>
    rw [addTo] at h
    split at h
    · next hsame =>
      have hg : g.uri ≠ .str u := by
        intro hg
        rw [hg] at hsame
        exact hu (Json.str_sameKey.mp hsame)
      obtain ⟨g', hmapped, rfl⟩ := exists_of_map_ok h
      have hadd := ok_of_mapError hmapped
      rw [groupsAt_cons_other hg, groupsAt_cons_other (EditGroup.uri_of_add hadd ▸ hg)]
    · obtain ⟨rest', hrest, rfl⟩ := exists_of_map_ok h
      have hsame := ih hrest
      simp only [groupsAt, List.filter_cons] at hsame ⊢
      rw [hsame]

/-- The first edit of a document makes its group. -/
theorem groupsAt_addTo_first {u : String} {e : TextEdit} {groups groups' : List EditGroup}
    (hnone : groupsAt u groups = []) (h : addTo (.str u) e groups = .ok groups') :
    groupsAt u groups' = [⟨.str u, [e], [e]⟩] := by
  induction groups generalizing groups' with
  | nil =>
    cases h
    exact groupsAt_cons_same rfl []
  | cons g rest ih =>
    have hg : g.uri ≠ .str u := by
      intro hg
      rw [groupsAt_cons_same hg] at hnone
      cases hnone
    rw [groupsAt_cons_other hg] at hnone
    rw [addTo, if_neg (mt Json.sameKey_str.mp hg)] at h
    obtain ⟨rest', hrest, rfl⟩ := exists_of_map_ok h
    rw [groupsAt_cons_other hg, ih hnone hrest]

/-- A later edit of a document goes to its group. -/
theorem groupsAt_addTo_later {u : String} {e : TextEdit} {g : EditGroup}
    {groups groups' : List EditGroup} (hone : groupsAt u groups = [g])
    (h : addTo (.str u) e groups = .ok groups') :
    ∃ g', g.add e = .ok g' ∧ groupsAt u groups' = [g'] := by
  induction groups generalizing groups' with
  | nil => cases hone
  | cons first rest ih =>
    by_cases hfirst : first.uri = .str u
    · rw [groupsAt_cons_same hfirst] at hone
      obtain ⟨rfl, hrest⟩ := List.cons.inj hone
      rw [addTo, if_pos (Json.sameKey_str.mpr hfirst)] at h
      obtain ⟨g', hmapped, rfl⟩ := exists_of_map_ok h
      have hadd := ok_of_mapError hmapped
      refine ⟨g', hadd, ?_⟩
      rw [groupsAt_cons_same (EditGroup.uri_of_add hadd ▸ hfirst), hrest]
    · rw [groupsAt_cons_other hfirst] at hone
      rw [addTo, if_neg (mt Json.sameKey_str.mp hfirst)] at h
      obtain ⟨rest', hrest, rfl⟩ := exists_of_map_ok h
      rw [groupsAt_cons_other hfirst]
      exact ih hone hrest

/-- The edits of one document among located edits. -/
def editsAt (u : String) (es : List LocatedEdit) : List TextEdit :=
  Step.editsAt u (es.map Step.edit)

theorem editsAt_append (u : String) (xs ys : List LocatedEdit) :
    editsAt u (xs ++ ys) = editsAt u xs ++ editsAt u ys := by
  rw [editsAt, List.map_append, Step.editsAt_append]
  rfl

theorem editsAt_concat_same {u : String} {e : LocatedEdit} (h : e.uri = .str u)
    (es : List LocatedEdit) : editsAt u (es ++ [e]) = editsAt u es ++ [e.textEdit] := by
  rw [editsAt_append]
  simp [editsAt, Step.editsAt, Step.editAt?, Json.same_str.mpr h]

theorem editsAt_concat_other {u : String} {e : LocatedEdit} (h : e.uri ≠ .str u)
    (es : List LocatedEdit) : editsAt u (es ++ [e]) = editsAt u es := by
  rw [editsAt_append]
  simp [editsAt, Step.editsAt, Step.editAt?, mt Json.same_str.mp h]

/-- The group of a document that has got some edits: exactly them, or no group. -/
def Holds (u : String) (groups : List EditGroup) (es : List TextEdit) : Prop :=
  groupsAt u groups = if es = [] then [] else [⟨.str u, es, es⟩]

/-- One more edit, behind all others of its document. -/
theorem Holds.add {u : String} {map map' : EditMap} {done : List LocatedEdit} {e : LocatedEdit}
    (h : Holds u map.groups (editsAt u done)) (hadd : map.add e = .ok map') {limit : Nat}
    (hlast : Within 0 limit (editsAt u (done ++ [e]))) :
    Holds u map'.groups (editsAt u (done ++ [e])) := by
  obtain ⟨groups', haddTo, rfl⟩ := exists_of_map_ok hadd
  by_cases hu : e.uri = .str u
  · rw [editsAt_concat_same hu] at hlast ⊢
    rw [hu] at haddTo
    rw [Holds, if_neg (by simp)]
    by_cases hfirst : editsAt u done = []
    · rw [Holds, if_pos hfirst] at h
      rw [groupsAt_addTo_first h haddTo, hfirst, List.nil_append]
    · rw [Holds, if_neg hfirst] at h
      obtain ⟨g', hg', hgroups⟩ := groupsAt_addTo_later h haddTo
      have hbefore := hlast.of_append_singleton.1.bounds
      rw [EditGroup.add_last hbefore] at hg'
      rw [hgroups, ← Except.ok.inj hg']
  · rw [editsAt_concat_other hu, Holds, groupsAt_addTo_other hu haddTo]
    exact h

/-- A whole list of edits, those of the document in order and apart. -/
theorem Holds.foldlM {u : String} {map map' : EditMap} {done es : List LocatedEdit}
    (h : Holds u map.groups (editsAt u done)) (hadd : es.foldlM EditMap.add map = .ok map')
    {limit : Nat} (hwithin : Within 0 limit (editsAt u (done ++ es))) :
    Holds u map'.groups (editsAt u (done ++ es)) := by
  induction es generalizing map done with
  | nil =>
    cases hadd
    rwa [List.append_nil]
  | cons e rest ih =>
    rw [List.foldlM_cons] at hadd
    cases hnext : map.add e with
    | error conflict =>
      rw [hnext] at hadd
      cases hadd
    | ok next =>
      rw [hnext] at hadd
      rw [← List.singleton_append, ← List.append_assoc] at hwithin ⊢
      have hsplit := hwithin
      rw [editsAt_append] at hsplit
      obtain ⟨middle, hdone⟩ := hsplit.of_append
      exact ih (h.add hnext hdone) hadd hwithin

/-- The group of a document holds its edits as they came, and there are some. -/
theorem edits_of_mem_groups {es : List LocatedEdit} {map : EditMap}
    (h : es.foldlM EditMap.add .empty = .ok map) {u : String} {limit : Nat}
    (hwithin : Within 0 limit (editsAt u es)) {g : EditGroup} (hg : g ∈ map.groups)
    (hu : g.uri = .str u) : g.edits = editsAt u es ∧ editsAt u es ≠ [] := by
  have hholds : Holds u map.groups (editsAt u es) := by
    have hempty : Holds u EditMap.empty.groups (editsAt u []) := rfl
    simpa using hempty.foldlM h hwithin
  have hmem : g ∈ groupsAt u map.groups := List.mem_filter.mpr ⟨hg, Json.sameKey_str.mpr hu⟩
  rw [hholds] at hmem
  split_ifs at hmem with hnil
  · cases hmem
  · rw [List.mem_singleton.mp hmem]
    exact ⟨rfl, hnil⟩

end EditMap

end RenameServer
