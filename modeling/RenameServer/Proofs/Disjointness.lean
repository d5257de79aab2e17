import RenameServer.Proofs.Announcing
import RenameServer.Proofs.Compatible
import RenameServer.Proofs.Courses
import RenameServer.Proofs.Emissions
import RenameServer.Proofs.OpenOrder

/-!
The strategies never get in their own way. The tokens of a text are apart, and
each document is gone through once: the document of the cursor first, then the
others, each under its own URI. So no two edits that a default rename draws meet,
whatever happens at its pauses; grouping keeps every one of them, and a conflict
is never reported.
-/
namespace RenameServer

open Respelling

/-- A value with the key of a text is that text. -/
theorem Json.eq_ofStr_of_key? {x : Json} {u : Str} (h : x.key? = (Json.ofStr u).key?) :
    x = .ofStr u := by
  cases u with
  | plain text => exact key?_eq_text.mp h
  | ragged r =>
    cases x with
    | float value => cases value <;> simp [key?, Key.ofFraction, ofStr] at h
    | _ => simp_all [key?, ofStr]

theorem Json.same_ofStr {x : Json} {u : Str} (h : x.key? = (Json.ofStr u).key?) :
    x.same (.ofStr u) = true := by
  obtain rfl := eq_ofStr_of_key? h
  cases u <;> simp [ofStr, same]

/-- Edits of one document that overlap, as two identical edits do. -/
def LocatedEdit.Meets (d e : LocatedEdit) : Prop :=
  d.uri.sameKey e.uri = true ∧ d.range.overlaps e.range = true

/-- No two edits meet. -/
def Separate (es : List LocatedEdit) : Prop := es.Pairwise fun d e => ¬d.Meets e

namespace Separate

variable {es : List LocatedEdit}

theorem compatible (h : Separate es) : Compatible es :=
  h.imp fun hmeets hexcludes => hmeets ⟨hexcludes.1, hexcludes.2.1⟩

/-- No edit of a document is there twice. -/
theorem editsFor (h : Separate es) (uri : Json) :
    EditMap.editsFor uri es =
      (es.filter fun e => e.uri.sameKey uri).map LocatedEdit.textEdit := by
  induction es using List.reverseRecOn with
  | nil => rfl
  | append_singleton before e ih =>
    obtain ⟨hbefore, -, hlast⟩ := List.pairwise_append.mp h
    rw [List.filter_append, List.map_append, ← ih hbefore]
    by_cases huri : e.uri.sameKey uri = true
    · have hnew : e.textEdit ∉ EditMap.editsFor uri before := by
        intro hmem
        obtain ⟨d, hd, hdoc, heq⟩ := EditMap.mem_editsFor.mp hmem
        apply hlast d hd e (List.mem_singleton_self e)
        constructor
        · rw [Json.sameKey_iff] at hdoc huri ⊢
          exact hdoc.trans huri.symm
        · have hrange : d.range = e.range := congrArg TextEdit.range heq
          rw [hrange, ByteRange.overlaps_self]
      rw [EditMap.editsFor_concat_same huri, if_neg hnew, List.filter_cons, if_pos huri]
      rfl
    · rw [EditMap.editsFor_concat_other huri, List.filter_cons, if_neg huri]
      exact (List.append_nil _).symm

/-- Grouping succeeds and drops nothing. -/
theorem exists_groups (h : Separate es) :
    ∃ map, EditMap.ofList es = .ok map ∧ map.groups.map EditGroup.uri = EditMap.targets es ∧
      ∀ g ∈ map.groups,
        g.edits = (es.filter fun e => e.uri.sameKey g.uri).map LocatedEdit.textEdit := by
  obtain ⟨map, hmap, hgroups⟩ := EditMap.ofList_of_compatible h.compatible
  refine ⟨map, hmap, hgroups.uris, fun g hg => ?_⟩
  rw [hgroups.edits g hg, h.editsFor]

end Separate

/-- The tokens of a text lie one before the other. -/
theorem Token.pairwise_before {base limit : Nat} {tokens : List Token}
    (h : Apart base limit tokens) : tokens.Pairwise fun t u => t.range.Before u.range := by
  induction tokens generalizing base with
  | nil => exact .nil
  | cons t rest ih =>
    have ht := h.bounds t (List.mem_cons_self ..)
    refine List.pairwise_cons.mpr ⟨fun u hu => ?_, ih h.2.2⟩
    have hu := h.2.2.bounds u hu
    refine ⟨hu.1, fun heq => ?_⟩
    have hstart : t.start = u.start := congrArg ByteRange.start heq
    omega

/-- What is written to tokens of one document does not meet. -/
theorem separate_here (source : Utf8.Bytes) (found : Token → Bool) (uri : Json) (name : String) :
    Separate (((Token.scan source).filter found).map fun t => ⟨uri, t.range, name⟩) := by
  rw [Separate, List.pairwise_map]
  refine ((Token.pairwise_before (apart_scan source)).filter found).imp ?_
  rintro t u hbefore ⟨-, hoverlaps⟩
  rw [ByteRange.overlaps_eq_false_iff.mpr (.inl hbefore)] at hoverlaps
  cases hoverlaps

/-- The edit that a step is. -/
def Step.edit? : Step → Option LocatedEdit
  | .edit e => some e
  | .failure _ => none

theorem Step.filterMap_edit? {α : Type} (f : α → LocatedEdit) (xs : List α) :
    (xs.map fun x => Step.edit (f x)).filterMap Step.edit? = xs.map f := by
  rw [List.filterMap_map]
  exact congrFun List.filterMap_eq_map xs

section Streams

variable {world : Nat → Workspace} {p q : Nat} {items : List Step}

theorem separate_fail {message : Str} {kind : FailureKind}
    (h : (Renamer.fail message kind).Gives world p q items) :
    Separate (items.filterMap Step.edit?) := by
  cases h with
  | item _ _ h =>
    cases h
    exact .nil

theorem Variable.separate_of_gives {s : Source} {offset : Int} {newName : Json}
    (h : (Variable.steps s offset newName).Gives world p q items) :
    Separate (items.filterMap Step.edit?) := by
  rcases Variable.steps_cases s offset newName with
    ⟨message, kind, hsteps⟩ | ⟨fault, hsteps⟩ | ⟨target, name, -, -, hsteps⟩
  · rw [hsteps] at h
    exact separate_fail h
  · rw [hsteps] at h
    cases h
    exact .nil
  · rw [hsteps, Stream.ofList_eq_prepend] at h
    obtain ⟨r, ys, -, hdone, rfl⟩ := h.of_prepend
    cases hdone
    obtain ⟨found, hoccurrences, -⟩ := exists_occurrences_eq_filter s.tokens target
    rw [List.append_nil, hoccurrences, Step.filterMap_edit?]
    exact separate_here ..

namespace Reference

/-- The matches elsewhere are in the given documents. -/
theorem mem_of_elsewhere {uri : Json} {spelling : Utf8.Bytes} {documents : List Document}
    {ranges : List LocatedRange} (h : (elsewhere uri spelling documents).Gives world p q ranges) :
    ∀ r ∈ ranges, ∃ d ∈ documents, r.uri = d.uri := by
  induction documents generalizing p ranges with
  | nil =>
    cases h
    exact List.forall_mem_nil _
  | cons d rest ih =>
    have hlater : ∀ r : LocatedRange, (∃ e ∈ rest, r.uri = e.uri) →
        ∃ e ∈ d :: rest, r.uri = e.uri := by
      rintro r ⟨e, he, heq⟩
      exact ⟨e, List.mem_cons_of_mem _ he, heq⟩
    rcases elsewhere_cases uri spelling d rest with
      ⟨-, heq⟩ | ⟨-, ⟨text, -, heq⟩ | ⟨fault, heq⟩⟩
    · rw [heq] at h
      exact fun r hr => hlater r (ih h r hr)
    · rw [heq] at h
      obtain ⟨i, ys, -, hys, rfl⟩ := h.of_prepend
      intro r hr
      rcases List.mem_append.mp hr with hr | hr
      · obtain ⟨t, -, rfl⟩ := List.mem_map.mp hr
        exact ⟨d, List.mem_cons_self .., rfl⟩
      · exact hlater r (ih hys r hr)
    · rw [heq] at h
      cases h
      exact List.forall_mem_nil _

/-- Matches of two documents do not meet, since their URIs differ. -/
theorem separate_append {left right : List LocatedRange} {name : String} {uri : Json}
    (hleft : Separate (left.map fun r => ⟨r.uri, r.range, name⟩))
    (hright : Separate (right.map fun r => ⟨r.uri, r.range, name⟩))
    (hin : ∀ r ∈ left, r.uri = uri) (hout : ∀ r ∈ right, uri.key? ≠ r.uri.key?) :
    Separate ((left ++ right).map fun r => ⟨r.uri, r.range, name⟩) := by
  rw [List.map_append]
  refine List.pairwise_append.mpr ⟨hleft, hright, ?_⟩
  intro d hd e he hmeets
  obtain ⟨r, hr, rfl⟩ := List.mem_map.mp hd
  obtain ⟨r', hr', rfl⟩ := List.mem_map.mp he
  apply hout r' hr'
  rw [← hin r hr]
  exact Json.sameKey_iff.mp hmeets.1

theorem separate_matching (uri : Json) (spelling source : Utf8.Bytes) (name : String) :
    Separate ((matching uri spelling (Token.scan source)).map fun r => ⟨r.uri, r.range, name⟩) := by
  rw [matching, List.map_map]
  exact separate_here ..

theorem separate_elsewhere {uri : Json} {spelling : Utf8.Bytes} {documents : List Document}
    {ranges : List LocatedRange} (h : (elsewhere uri spelling documents).Gives world p q ranges)
    (hdistinct : Workspace.Distinct ⟨documents⟩) (name : String) :
    Separate (ranges.map fun r => ⟨r.uri, r.range, name⟩) := by
  induction documents generalizing p ranges with
  | nil =>
    cases h
    exact .nil
  | cons d rest ih =>
    obtain ⟨hfirst, hrest⟩ := List.nodup_cons.mp hdistinct
    rcases elsewhere_cases uri spelling d rest with
      ⟨-, heq⟩ | ⟨-, ⟨text, -, heq⟩ | ⟨fault, heq⟩⟩
    · rw [heq] at h
      exact ih h hrest
    · rw [heq] at h
      obtain ⟨i, ys, -, hys, rfl⟩ := h.of_prepend
      refine separate_append (separate_matching ..) (ih hys hrest) uri_of_matching ?_
      intro r hr hkey
      obtain ⟨e, he, huri⟩ := mem_of_elsewhere hys r hr
      rw [huri] at hkey
      exact hfirst (List.mem_map.mpr ⟨e, he, hkey.symm⟩)
    · rw [heq] at h
      cases h
      exact .nil

theorem separate_of_gives (hworld : ∀ n, (world n).Distinct) {s : Source} {u : Str}
    (hs : s.uri = .ofStr u) {offset : Int} {newName : Json}
    (h : (steps s offset newName).Gives world p q items) :
    Separate (items.filterMap Step.edit?) := by
  rcases steps_cases s offset newName with
    ⟨message, kind, hsteps⟩ | ⟨fault, hsteps⟩ | ⟨target, name, -, hsteps⟩
  · rw [hsteps] at h
    exact separate_fail h
  · rw [hsteps] at h
    cases h
    exact .nil
  · rw [hsteps] at h
    obtain ⟨ranges, hranges, rfl⟩ := h.of_map
    obtain ⟨i, ys, -, hlook, rfl⟩ := hranges.of_prepend
    cases hlook with
    | look hys =>
      have hedits := Step.filterMap_edit? (fun r : LocatedRange => ⟨r.uri, r.range, name⟩)
        (matching s.uri target.value s.tokens ++ ys)
      refine hedits ▸ separate_append (separate_matching ..)
        (separate_elsewhere hys (hworld i) name) uri_of_matching ?_
      -- The document of the cursor is left out, whether it is open or not.
      intro r hr hkey
      have hother := uri_of_elsewhere hys r hr
      rw [hs] at hkey hother
      rw [Json.same_ofStr hkey.symm] at hother
      cases hother

end Reference

/-- The edits of the default chain never meet. -/
theorem RenameService.separate_of_gives (hworld : ∀ n, (world n).Distinct) {s : Source} {u : Str}
    (hs : s.uri = .ofStr u) {offset : Int} {newName : Json}
    (h : (Chain.standard.steps s offset newName).Gives world p q items) :
    Separate (items.filterMap Step.edit?) := by
  by_cases hfailed : ∃ f, items = [.failure f]
  · obtain ⟨f, rfl⟩ := hfailed
    exact .nil
  · obtain ⟨r, hr, hgives⟩ := Chain.gives_delegate h fun f hf => hfailed ⟨f, hf⟩
    simp only [List.mem_cons, List.not_mem_nil, or_false] at hr
    rcases hr with rfl | rfl
    · exact Variable.separate_of_gives hgives
    · exact Reference.separate_of_gives hworld hs hgives

end Streams

end RenameServer
