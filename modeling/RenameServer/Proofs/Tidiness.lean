import RenameServer.Proofs.Strategies

/-!
Renamers that keep to what they were given. Such a renamer edits only the document
of the cursor and documents that it has seen open, and the texts of its failures
and faults can be encoded. The two strategies are of this kind, and so is a chain
of renamers that are.
-/
namespace RenameServer

/-- The text of the fault can be encoded. -/
def Fault.Plain (fault : Fault) : Prop := ∃ text, fault.message = .plain text

namespace Stream

variable {α β : Type} {good : Workspace → Prop} {p : α → Prop}

/-- All items of a stream have a property and its faults are plain, while it looks at good
workspaces only. -/
def Meets (good : Workspace → Prop) (p : α → Prop) : Stream α → Prop
  | .done => True
  | .raise fault => fault.Plain
  | .emit _ rest => rest.Meets good p
  | .look rest => ∀ w, good w → (rest w).Meets good p
  | .item a rest => p a ∧ rest.Meets good p

theorem Meets.prepend {s : Stream α} (h : s.Meets good p) {xs : List α} (hxs : ∀ x ∈ xs, p x) :
    (prepend xs s).Meets good p := by
  induction xs with
  | nil => exact h
  | cons x xs ih =>
    obtain ⟨hx, hrest⟩ := List.forall_mem_cons.mp hxs
    exact ⟨hx, ih hrest⟩

theorem meets_ofList {xs : List α} (hxs : ∀ x ∈ xs, p x) : (ofList xs).Meets good p := by
  induction xs with
  | nil => trivial
  | cons x xs ih =>
    obtain ⟨hx, hrest⟩ := List.forall_mem_cons.mp hxs
    exact ⟨hx, ih hrest⟩

theorem Meets.map {s : Stream α} (h : s.Meets good p) {q : β → Prop} {f : α → β}
    (hf : ∀ a, p a → q (f a)) : (s.map f).Meets good q := by
  induction s with
  | done => trivial
  | raise fault => exact h
  | emit event rest ih => exact ih h
  | look rest ih => exact fun w hw => ih w (h w hw)
  | item a rest ih => exact ⟨hf a h.1, ih h.2⟩

theorem Meets.items {s : Stream α} (h : s.Meets good p) {w : Workspace} (hw : good w) :
    ∀ a ∈ (s.draw w none).items, p a := by
  induction s with
  | done => exact List.forall_mem_nil _
  | raise fault => exact List.forall_mem_nil _
  | emit event rest ih => exact ih h
  | look rest ih => exact ih w (h w hw)
  | item a rest ih => exact List.forall_mem_cons.mpr ⟨h.1, ih h.2⟩

theorem Meets.fault {s : Stream α} (h : s.Meets good p) {w : Workspace} (hw : good w) :
    ∀ fault ∈ (s.draw w none).fault, fault.Plain := by
  induction s with
  | done => exact fun _ hnone => absurd hnone (by simp [draw, Drawn.nothing])
  | raise fault => exact fun _ hsome => Option.some.inj hsome ▸ h
  | emit event rest ih => exact ih h
  | look rest ih => exact ih w (h w hw)
  | item a rest ih => exact ih h.2

end Stream

/-- An edit in a document of a certain kind, or a failure with a text that can be encoded. -/
def Step.Fits (p : Json → Prop) : Step → Prop
  | .edit e => p e.uri
  | .failure f => ∃ text, f.message = .plain text

/-- Whatever kind of document the cursor is in and are open, the edits are in documents of
this kind. -/
def Renamer.Tidy (r : Renamer) : Prop :=
  ∀ (p : Json → Prop) (s : Source) (offset : Int) (newName : Json), p s.uri →
    (r.steps s offset newName).Meets (fun w => ∀ d ∈ w.documents, p d.uri) (Step.Fits p)

theorem Variable.tidy_renamer : Variable.renamer.Tidy := by
  intro p s offset newName hs
  change (Variable.steps s offset newName).Meets _ _
  unfold Variable.steps
  dsimp only
  split
  · exact ⟨⟨_, rfl⟩, trivial⟩
  split
  · exact ⟨⟨_, rfl⟩, trivial⟩
  split
  · split
    · exact ⟨⟨_, rfl⟩, trivial⟩
    · refine Stream.meets_ofList fun step hstep => ?_
      obtain ⟨t, -, rfl⟩ := List.mem_map.mp hstep
      exact hs
  · exact ⟨_, rfl⟩
  · exact ⟨_, rfl⟩

namespace Reference

theorem meets_elsewhere {good : Workspace → Prop} {p : Json → Prop} {documents : List Document}
    (h : ∀ d ∈ documents, p d.uri) (uri : Json) (spelling : Utf8.Bytes) :
    (elsewhere uri spelling documents).Meets good fun r => p r.uri := by
  induction documents with
  | nil => trivial
  | cons d rest ih =>
    obtain ⟨hd, hrest⟩ := List.forall_mem_cons.mp h
    rw [elsewhere]
    split
    · exact ih hrest
    split
    · exact (ih hrest).prepend fun r hr => uri_of_matching r hr ▸ hd
    · exact ⟨_, rfl⟩
    · exact ⟨_, rfl⟩

theorem tidy_renamer : Reference.renamer.Tidy := by
  intro p s offset newName hs
  have hfind : (find s offset).Meets (fun w => ∀ d ∈ w.documents, p d.uri) fun r => p r.uri := by
    unfold find
    dsimp only
    split
    · trivial
    · refine Stream.Meets.prepend ?_ fun r hr => uri_of_matching r hr ▸ hs
      exact fun w hw => meets_elsewhere hw ..
  change (Reference.steps s offset newName).Meets _ _
  unfold Reference.steps
  split
  · exact ⟨⟨_, rfl⟩, trivial⟩
  split
  · exact ⟨⟨_, rfl⟩, trivial⟩
  split
  · split
    · exact ⟨⟨_, rfl⟩, trivial⟩
    · exact hfind.map fun r hr => hr
  · exact ⟨_, rfl⟩
  · exact ⟨_, rfl⟩

end Reference

namespace Chain

variable {good : Workspace → Prop} {p : Json → Prop}

theorem meets_commit {name : String} {otherwise : Option Failure → Stream Step}
    (hotherwise : ∀ last : Option Failure, (∀ f ∈ last, Step.Fits p (.failure f)) →
      (otherwise last).Meets good (Step.Fits p))
    {s : Stream Step} (h : s.Meets good (Step.Fits p)) :
    (commit name otherwise s).Meets good (Step.Fits p) := by
  induction s with
  | done => exact hotherwise none (by simp)
  | raise fault => exact h
  | emit event rest ih => exact ih h
  | look rest ih => exact fun w hw => ih w (h w hw)
  | item step rest =>
    cases step with
    | failure f => exact hotherwise (some f) (by simpa using h.1)
    | edit e => exact h

theorem meets_delegate {renamers : List Renamer} {s : Source} {offset : Int} {newName : Json}
    (h : ∀ r ∈ renamers, (r.steps s offset newName).Meets good (Step.Fits p))
    {last : Option Failure} (hlast : ∀ f ∈ last, Step.Fits p (.failure f)) :
    (delegate s offset newName last renamers).Meets good (Step.Fits p) := by
  induction renamers generalizing last with
  | nil =>
    cases last with
    | none => exact ⟨⟨_, rfl⟩, trivial⟩
    | some f => exact ⟨hlast f rfl, trivial⟩
  | cons r rest ih =>
    obtain ⟨hr, hrest⟩ := List.forall_mem_cons.mp h
    rw [delegate]
    split
    · exact ih hrest hlast
    · refine meets_commit (fun last' hlast' => ih hrest ?_) hr
      cases last' with
      | none => exact hlast
      | some f => exact hlast'

/-- A chain of tidy renamers is tidy. -/
theorem tidy_renamer {renamers : List Renamer} (h : ∀ r ∈ renamers, r.Tidy) :
    (Chain.renamer renamers).Tidy :=
  fun p s offset newName hs =>
    meets_delegate (fun r hr => h r hr p s offset newName hs) (by simp)

theorem tidy_standard : Chain.standard.Tidy :=
  tidy_renamer (List.forall_mem_cons.mpr ⟨Variable.tidy_renamer,
    List.forall_mem_singleton.mpr Reference.tidy_renamer⟩)

end Chain

end RenameServer
