import Mathlib.Data.List.Induction
import RenameServer.Proofs.Neighbours

/-!
What grouping makes of any list of edits. The documents are the different URIs
in the order in which they first occur, and each has the different edits that
are meant for it in the order in which they came. Grouping fails exactly when
two edits of one document overlap and are not the same, and it does so at the
first edit that one before it excludes.
-/
namespace RenameServer

section Distinct

variable {α : Type} {r : α → α → Bool}

theorem eraseDupsBy_loop (l seen : List α) (a : α) :
    List.eraseDupsBy.loop r (l ++ [a]) seen =
      if (List.eraseDupsBy.loop r l seen).any (r a) then List.eraseDupsBy.loop r l seen
      else List.eraseDupsBy.loop r l seen ++ [a] := by
  induction l generalizing seen with
  | nil =>
    simp only [List.nil_append, List.eraseDupsBy.loop, List.any_reverse]
    split <;> simp_all
  | cons b rest ih =>
    simp only [List.cons_append, List.eraseDupsBy.loop]
    rcases Bool.eq_false_or_eq_true (seen.any (r b)) with hseen | hseen
    · simp only [hseen, ih seen]
    · simp only [hseen, ih (b :: seen)]

/-- A last element is kept unless it is there already. -/
theorem eraseDupsBy_concat (l : List α) (a : α) :
    (l ++ [a]).eraseDupsBy r =
      if (l.eraseDupsBy r).any (r a) then l.eraseDupsBy r else l.eraseDupsBy r ++ [a] :=
  eraseDupsBy_loop l [] a

theorem eraseDups_concat [DecidableEq α] (l : List α) (a : α) :
    (l ++ [a]).eraseDups = if a ∈ l then l.eraseDups else l.eraseDups ++ [a] := by
  have hmem : (l.eraseDups.any fun b => a == b) = true ↔ a ∈ l := by
    rw [← List.mem_eraseDups]
    simp
  simp only [List.eraseDups, eraseDupsBy_concat] at hmem ⊢
  simp only [hmem]

end Distinct

/-- Edits of one document that overlap and are not the same. -/
def LocatedEdit.Excludes (d e : LocatedEdit) : Prop :=
  d.uri.sameKey e.uri = true ∧ d.range.overlaps e.range = true ∧ d.textEdit ≠ e.textEdit

instance : DecidableRel LocatedEdit.Excludes := fun _ _ => inferInstanceAs (Decidable (_ ∧ _))

/-- No edit excludes a later one. -/
def Compatible (es : List LocatedEdit) : Prop := es.Pairwise fun d e => ¬d.Excludes e

instance : DecidablePred Compatible := fun _ => inferInstanceAs (Decidable (List.Pairwise _ _))

namespace EditMap

/-- The documents that edits are meant for, as they first occur. -/
def targets (es : List LocatedEdit) : List Json := (es.map (·.uri)).eraseDupsBy Json.sameKey

/-- The different edits that are meant for a document. -/
def editsFor (uri : Json) (es : List LocatedEdit) : List TextEdit :=
  ((es.filter fun e => e.uri.sameKey uri).map LocatedEdit.textEdit).eraseDups

theorem mem_editsFor {uri : Json} {es : List LocatedEdit} {t : TextEdit} :
    t ∈ editsFor uri es ↔ ∃ e ∈ es, e.uri.sameKey uri = true ∧ e.textEdit = t := by
  simp only [editsFor, List.mem_eraseDups, List.mem_map, List.mem_filter, and_assoc]

theorem editsFor_concat_other {uri : Json} {e : LocatedEdit} (h : ¬e.uri.sameKey uri = true)
    (es : List LocatedEdit) : editsFor uri (es ++ [e]) = editsFor uri es := by
  simp only [editsFor, List.filter_append, List.filter_cons, if_neg h, List.filter_nil,
    List.append_nil]

theorem editsFor_concat_same {uri : Json} {e : LocatedEdit} (h : e.uri.sameKey uri = true)
    (es : List LocatedEdit) :
    editsFor uri (es ++ [e]) =
      if e.textEdit ∈ editsFor uri es then editsFor uri es
      else editsFor uri es ++ [e.textEdit] := by
  simp only [editsFor, List.filter_append, List.filter_cons, if_pos h, List.filter_nil,
    List.map_append, List.map_cons, List.map_nil, List.mem_eraseDups, eraseDups_concat]

/-- The groups that come of edits, none of which excludes a later one. -/
structure Groups (es : List LocatedEdit) (groups : List EditGroup) : Prop where
  uris : groups.map EditGroup.uri = targets es
  edits : ∀ g ∈ groups, g.edits = editsFor g.uri es
  sound : ∀ g ∈ groups, g.Sound
  apart : groups.Pairwise fun g h => g.uri.key? ≠ h.uri.key?
  compatible : Compatible es

theorem groups_nil : Groups [] [] where
  uris := rfl
  edits := List.forall_mem_nil _
  sound := List.forall_mem_nil _
  apart := .nil
  compatible := .nil

/-- The group of a document is the first one with its URI, or a new one at the end. -/
theorem addTo_cases (uri : Json) (e : TextEdit) (groups : List EditGroup) :
    ((∀ g ∈ groups, g.uri.key? ≠ uri.key?) ∧
        addTo uri e groups = .ok (groups ++ [⟨uri, [e], [e]⟩])) ∨
      ∃ front g back, groups = front ++ g :: back ∧ g.uri.key? = uri.key? ∧
        (∀ h ∈ front, h.uri.key? ≠ uri.key?) ∧
        addTo uri e groups =
          ((g.add e).mapError fun other => ⟨uri, other, e⟩).map (front ++ · :: back) := by
  induction groups with
  | nil => exact .inl ⟨List.forall_mem_nil _, rfl⟩
  | cons g rest ih =>
    rw [addTo]
    by_cases hg : g.uri.key? = uri.key?
    · rw [if_pos (Json.sameKey_iff.mpr hg)]
      exact .inr ⟨[], g, rest, rfl, hg, List.forall_mem_nil _, rfl⟩
    · rw [if_neg (mt Json.sameKey_iff.mp hg)]
      rcases ih with ⟨hnone, hadd⟩ | ⟨front, g', back, rfl, hg', hfront, hadd⟩
      · rw [hadd]
        exact .inl ⟨List.forall_mem_cons.mpr ⟨hg, hnone⟩, rfl⟩
      · refine .inr ⟨g :: front, g', back, rfl, hg', List.forall_mem_cons.mpr ⟨hg, hfront⟩, ?_⟩
        rw [hadd]
        cases g'.add e <;> rfl

variable {done : List LocatedEdit} {groups : List EditGroup} {e : LocatedEdit}

theorem Groups.mem_targets (h : Groups done groups) (uri : Json) :
    ((targets done).any fun u => uri.sameKey u) = true ↔ ∃ g ∈ groups, g.uri.key? = uri.key? := by
  rw [← h.uris, List.any_eq_true]
  constructor
  · rintro ⟨u, hu, hsame⟩
    obtain ⟨g, hg, rfl⟩ := List.mem_map.mp hu
    exact ⟨g, hg, (Json.sameKey_iff.mp hsame).symm⟩
  · rintro ⟨g, hg, hsame⟩
    exact ⟨g.uri, List.mem_map_of_mem hg, Json.sameKey_iff.mpr hsame.symm⟩

/-- Each edit is in a group. -/
theorem Groups.exists_group (h : Groups done groups) {d : LocatedEdit} (hd : d ∈ done) :
    ∃ g ∈ groups, g.uri.key? = d.uri.key? := by
  rw [← h.mem_targets]
  -- Only the first occurrence of a URI is kept, and it has the same key.
  clear h
  induction done using List.reverseRecOn with
  | nil => cases hd
  | append_singleton before last ih =>
    rw [targets, List.map_append, List.map_singleton, eraseDupsBy_concat]
    rcases List.mem_append.mp hd with hd | hd
    · have hbefore := ih hd
      rw [targets] at hbefore
      split
      · exact hbefore
      · rw [List.any_append, hbefore, Bool.true_or]
    · rw [List.mem_singleton.mp hd]
      split
      · assumption
      · simp [Json.sameKey]

theorem compatible_concat (h : Compatible done) (hlast : ∀ d ∈ done, ¬d.Excludes e) :
    Compatible (done ++ [e]) := by
  refine List.pairwise_append.mpr ⟨h, List.pairwise_singleton _ _, ?_⟩
  intro d hd e' he'
  rw [List.mem_singleton.mp he']
  exact hlast d hd

/-- The first edit of a document. -/
theorem Groups.add_first (h : Groups done groups) (hnone : ∀ g ∈ groups, g.uri.key? ≠ e.uri.key?) :
    Groups (done ++ [e]) (groups ++ [⟨e.uri, [e.textEdit], [e.textEdit]⟩]) := by
  have hunseen : ∀ d ∈ done, d.uri.key? ≠ e.uri.key? := by
    intro d hd hsame
    obtain ⟨g, hg, hkey⟩ := h.exists_group hd
    exact hnone g hg (hkey.trans hsame)
  have hnew : editsFor e.uri (done ++ [e]) = [e.textEdit] := by
    have hempty : editsFor e.uri done = [] := by
      rw [List.eq_nil_iff_forall_not_mem]
      intro t ht
      obtain ⟨d, hd, hsame, -⟩ := mem_editsFor.mp ht
      exact hunseen d hd (Json.sameKey_iff.mp hsame)
    rw [editsFor_concat_same (Json.sameKey_iff.mpr rfl), hempty, if_neg (List.not_mem_nil),
      List.nil_append]
  constructor
  · have hany : ¬((targets done).any fun u => e.uri.sameKey u) = true := by
      rw [h.mem_targets]
      rintro ⟨g, hg, hkey⟩
      exact hnone g hg hkey
    rw [targets] at hany
    rw [List.map_append, h.uris, targets, targets, List.map_append, List.map_singleton,
      List.map_singleton, eraseDupsBy_concat, if_neg hany]
  · intro g hg
    rcases List.mem_append.mp hg with hg | hg
    · rw [h.edits g hg, editsFor_concat_other]
      rw [Json.sameKey_iff]
      exact fun hkey => hnone g hg hkey.symm
    · rw [List.mem_singleton.mp hg]
      exact hnew.symm
  · intro g hg
    rcases List.mem_append.mp hg with hg | hg
    · exact h.sound g hg
    · rw [List.mem_singleton.mp hg]
      exact EditGroup.sound_singleton _ _
  · refine List.pairwise_append.mpr ⟨h.apart, List.pairwise_singleton _ _, ?_⟩
    intro g hg g' hg'
    rw [List.mem_singleton.mp hg']
    exact hnone g hg
  · apply compatible_concat h.compatible
    rintro d hd ⟨hsame, -⟩
    exact hunseen d hd (Json.sameKey_iff.mp hsame)

/-- A further edit of a document changes the group of that document only. -/
theorem Groups.add_further {front back : List EditGroup} {g g' : EditGroup}
    (h : Groups done (front ++ g :: back)) (hkey : g.uri.key? = e.uri.key?)
    (huri : g'.uri = g.uri) (hsound : g'.Sound) (hedits : g'.edits = editsFor g.uri (done ++ [e]))
    (hcompatible : Compatible (done ++ [e])) :
    Groups (done ++ [e]) (front ++ g' :: back) := by
  have hothers : ∀ f ∈ front ++ back, f ∈ front ++ g :: back ∧ f.uri.key? ≠ e.uri.key? := by
    obtain ⟨-, hback, hfront⟩ := List.pairwise_append.mp h.apart
    intro f hf
    rw [← hkey]
    rcases List.mem_append.mp hf with hf | hf
    · exact ⟨List.mem_append_left _ hf, hfront f hf g (List.mem_cons_self ..)⟩
    · exact ⟨List.mem_append_right _ (List.mem_cons_of_mem _ hf),
        (List.rel_of_pairwise_cons hback hf).symm⟩
  have hmem : ∀ f ∈ front ++ g' :: back, f = g' ∨ f ∈ front ++ back := by
    intro f hf
    simp only [List.mem_append, List.mem_cons] at hf ⊢
    tauto
  constructor
  · have hany : ((targets done).any fun u => e.uri.sameKey u) = true := by
      rw [h.mem_targets]
      exact ⟨g, List.mem_append_right _ (List.mem_cons_self ..), hkey⟩
    have huris := h.uris
    rw [targets] at hany
    rw [List.map_append, List.map_cons] at huris ⊢
    rw [huri, huris, targets, targets, List.map_append, List.map_singleton, eraseDupsBy_concat,
      if_pos hany]
  · intro f hf
    rcases hmem f hf with rfl | hf
    · rw [hedits, huri]
    · obtain ⟨hold, hne⟩ := hothers f hf
      rw [h.edits f hold, editsFor_concat_other]
      rw [Json.sameKey_iff]
      exact fun hkey => hne hkey.symm
  · intro f hf
    rcases hmem f hf with rfl | hf
    · exact hsound
    · exact h.sound f (hothers f hf).1
  · obtain ⟨hfront, hback, hcross⟩ := List.pairwise_append.mp h.apart
    rw [List.pairwise_cons] at hback
    refine List.pairwise_append.mpr ⟨hfront, List.pairwise_cons.mpr ⟨?_, hback.2⟩, ?_⟩
    · intro f hf
      rw [huri]
      exact hback.1 f hf
    · intro f hf f' hf'
      rcases List.mem_cons.mp hf' with rfl | hf'
      · rw [huri]
        exact hcross f hf g (List.mem_cons_self ..)
      · exact hcross f hf f' (List.mem_cons_of_mem _ hf')
  · exact hcompatible

/-- One edit more: it is grouped, or one before it excludes it. -/
theorem Groups.add_cases {map : EditMap} (h : Groups done map.groups) (e : LocatedEdit) :
    (∃ map', map.add e = .ok map' ∧ Groups (done ++ [e]) map'.groups) ∨
      ∃ d ∈ done, d.Excludes e ∧ map.add e = .error ⟨e.uri, d.textEdit, e.textEdit⟩ := by
  rcases addTo_cases e.uri e.textEdit map.groups with
    ⟨hnone, hadd⟩ | ⟨front, g, back, heq, hkey, -, hadd⟩
  · exact .inl ⟨⟨_⟩, by rw [add, hadd]; rfl, h.add_first hnone⟩
  · have hg : g ∈ map.groups := by
      rw [heq]
      exact List.mem_append_right _ (List.mem_cons_self ..)
    have hsame : e.uri.sameKey g.uri = true := Json.sameKey_iff.mpr hkey.symm
    have hmem : ∀ t, t ∈ g.edits ↔ ∃ d ∈ done, d.uri.key? = g.uri.key? ∧ d.textEdit = t := by
      intro t
      rw [h.edits g hg, mem_editsFor]
      simp only [Json.sameKey_iff]
    have hnext := editsFor_concat_same hsame done
    rw [← h.edits g hg] at hnext
    rw [heq] at h
    rcases (h.sound g (heq ▸ hg)).add_cases e.textEdit with
      ⟨hpresent, hok⟩ | ⟨hnew, t, ht, hoverlaps, herror⟩ | ⟨hfree, g', hok, hsound, huri, hedits⟩
    · refine .inl ⟨⟨front ++ g :: back⟩, by rw [add, hadd, hok]; rfl, ?_⟩
      rw [if_pos hpresent] at hnext
      refine h.add_further hkey rfl (h.sound g (heq ▸ hg)) hnext.symm ?_
      apply compatible_concat h.compatible
      rintro d hd ⟨hdoc, hoverlaps, hne⟩
      have hd : d.textEdit ∈ g.edits :=
        (hmem _).mpr ⟨d, hd, (Json.sameKey_iff.mp hdoc).trans hkey.symm, rfl⟩
      have hapart := (h.sound g (heq ▸ hg)).apart hd hpresent hne
      rw [LocatedEdit.textEdit, LocatedEdit.textEdit, hoverlaps] at hapart
      cases hapart
    · obtain ⟨d, hd, hdoc, rfl⟩ := (hmem t).mp ht
      refine .inr ⟨d, hd, ⟨Json.sameKey_iff.mpr (hdoc.trans hkey), hoverlaps, ?_⟩, ?_⟩
      · intro heq
        exact hnew (heq ▸ ht)
      · rw [add, hadd, herror]
        rfl
    · refine .inl ⟨⟨front ++ g' :: back⟩, by rw [add, hadd, hok]; rfl, ?_⟩
      have hnew : e.textEdit ∉ g.edits := by
        intro hpresent
        have hapart := hfree _ hpresent
        rw [ByteRange.overlaps_self] at hapart
        cases hapart
      rw [if_neg hnew] at hnext
      refine h.add_further hkey huri hsound (hedits.trans hnext.symm) ?_
      apply compatible_concat h.compatible
      rintro d hd ⟨hdoc, hoverlaps, -⟩
      have hapart := hfree d.textEdit
        ((hmem _).mpr ⟨d, hd, (Json.sameKey_iff.mp hdoc).trans hkey.symm, rfl⟩)
      rw [LocatedEdit.textEdit, LocatedEdit.textEdit, hoverlaps] at hapart
      cases hapart

/-- Edits added one after the other, when some have been added before. -/
theorem Groups.foldlM_cases {map : EditMap} (h : Groups done map.groups) (es : List LocatedEdit) :
    (∃ map', es.foldlM add map = .ok map' ∧ Groups (done ++ es) map'.groups) ∨
      ∃ before e after, es = before ++ e :: after ∧ Compatible (done ++ before) ∧
        ∃ d ∈ done ++ before, d.Excludes e ∧
          es.foldlM add map = .error ⟨e.uri, d.textEdit, e.textEdit⟩ := by
  induction es generalizing done map with
  | nil => exact .inl ⟨map, rfl, by rwa [List.append_nil]⟩
  | cons e rest ih =>
    rw [List.foldlM_cons]
    rcases h.add_cases e with ⟨map', hadd, h'⟩ | ⟨d, hd, hexcludes, hadd⟩
    · rw [hadd]
      rcases ih h' with
        ⟨last, hlast, hgroups⟩ | ⟨before, e', after, rfl, hbefore, d, hd, hex, herror⟩
      · rw [List.append_assoc] at hgroups
        exact .inl ⟨last, hlast, hgroups⟩
      · rw [List.append_assoc] at hbefore hd
        exact .inr ⟨e :: before, e', after, rfl, hbefore, d, hd, hex, herror⟩
    · rw [hadd]
      exact .inr ⟨[], e, rest, rfl, by rw [List.append_nil]; exact h.compatible, d,
        List.mem_append_left _ hd, hexcludes, rfl⟩

/-- Edits of which none excludes a later one are grouped. -/
theorem ofList_of_compatible {es : List LocatedEdit} (h : Compatible es) :
    ∃ map, ofList es = .ok map ∧ Groups es map.groups := by
  have hstart : Groups [] empty.groups := groups_nil
  rcases hstart.foldlM_cases es with hok | ⟨before, e, after, rfl, -, d, hd, hexcludes, -⟩
  · exact hok
  · exact absurd hexcludes
      ((List.pairwise_append.mp h).2.2 d hd e (List.mem_cons_self ..))

/-- Of other edits the first one that one before it excludes is reported. -/
theorem ofList_of_not_compatible {es : List LocatedEdit} (h : ¬Compatible es) :
    ∃ before e after, es = before ++ e :: after ∧ Compatible before ∧
      ∃ d ∈ before, d.Excludes e ∧ ofList es = .error ⟨e.uri, d.textEdit, e.textEdit⟩ := by
  have hstart : Groups [] empty.groups := groups_nil
  rcases hstart.foldlM_cases es with ⟨map, -, hgroups⟩ | hfails
  · exact absurd hgroups.compatible h
  · exact hfails

end EditMap

end RenameServer
