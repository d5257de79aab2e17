import RenameServer.Proofs.Streams

/-!
Streams that are drawn to their end while the workspace stays as it is. A chain
gives what its first renamer gives that applies and starts with an edit, and
every edit of a chain comes from one of its renamers.
-/
namespace RenameServer.Stream

variable {α β : Type} {w : Workspace}

/-- All items of a stream that ends without a fault. -/
structure Draws (w : Workspace) (s : Stream α) (items : List α) : Prop where
  items : (s.draw w none).items = items
  fault : (s.draw w none).fault = none

theorem draws_done : (Stream.done : Stream α).Draws w [] := ⟨rfl, rfl⟩

theorem draw_prepend (xs : List α) (s : Stream α) :
    ((prepend xs s).draw w none).items = xs ++ (s.draw w none).items ∧
      ((prepend xs s).draw w none).fault = (s.draw w none).fault := by
  induction xs with
  | nil => exact ⟨rfl, rfl⟩
  | cons x xs ih => exact ⟨congrArg (x :: ·) ih.1, ih.2⟩

theorem draw_map (f : α → β) (s : Stream α) :
    ((s.map f).draw w none).items = (s.draw w none).items.map f ∧
      ((s.map f).draw w none).fault = (s.draw w none).fault := by
  induction s with
  | done => exact ⟨rfl, rfl⟩
  | raise fault => exact ⟨rfl, rfl⟩
  | emit event rest ih => exact ih
  | look rest ih => exact ih w
  | item a rest ih => exact ⟨congrArg (f a :: ·) ih.1, ih.2⟩

theorem Draws.prepend {s : Stream α} {items : List α} (h : s.Draws w items) (xs : List α) :
    (prepend xs s).Draws w (xs ++ items) := by
  obtain ⟨hitems, hfault⟩ := draw_prepend (w := w) xs s
  exact ⟨by rw [hitems, h.items], by rw [hfault, h.fault]⟩

theorem draws_ofList (xs : List α) : (ofList xs).Draws w xs := by
  have h := draws_done.prepend (w := w) xs
  rwa [List.append_nil, ← ofList_eq_prepend] at h

theorem Draws.look {next : Workspace → Stream α} {items : List α} (h : (next w).Draws w items) :
    (Stream.look next).Draws w items := ⟨h.items, h.fault⟩

theorem Draws.map {s : Stream α} {items : List α} (h : s.Draws w items) (f : α → β) :
    (s.map f).Draws w (items.map f) := by
  obtain ⟨hitems, hfault⟩ := draw_map (w := w) f s
  exact ⟨by rw [hitems, h.items], by rw [hfault, h.fault]⟩

end RenameServer.Stream

namespace RenameServer.Chain

variable {w : Workspace} {s : Source} {offset : Int} {newName : Json}

/-- A drawn stream that a chain passes over: an empty one, or one that starts with
a failure. -/
def Passed (d : Stream.Drawn Step) : Prop :=
  (d.items = [] ∧ d.fault = none) ∨ ∃ failure rest, d.items = .failure failure :: rest

/-- A stream that is passed over leaves the word to the others. -/
theorem draw_commit_of_passed (name : String) (otherwise : Option Failure → Stream Step)
    {stream : Stream Step} (h : Passed (stream.draw w none)) :
    ∃ last, ((commit name otherwise stream).draw w none).items =
        ((otherwise last).draw w none).items ∧
      ((commit name otherwise stream).draw w none).fault =
        ((otherwise last).draw w none).fault := by
  induction stream with
  | done => exact ⟨none, rfl, rfl⟩
  | raise fault =>
    rcases h with ⟨-, hfault⟩ | ⟨failure, rest, hitems⟩
    · cases hfault
    · cases hitems
  | emit event next ih => exact ih h
  | look next ih => exact ih w h
  | item step next ih =>
    cases step with
    | failure failure => exact ⟨some failure, rfl, rfl⟩
    | edit e =>
      rcases h with ⟨hitems, -⟩ | ⟨failure, rest, hitems⟩
      · cases hitems
      · cases hitems

/-- Any other stream is the one that a chain commits to. -/
theorem draw_commit_of_not_passed (name : String) (otherwise : Option Failure → Stream Step)
    {stream : Stream Step} (h : ¬ Passed (stream.draw w none)) :
    ((commit name otherwise stream).draw w none).items = (stream.draw w none).items ∧
      ((commit name otherwise stream).draw w none).fault = (stream.draw w none).fault := by
  induction stream with
  | done => exact absurd (.inl ⟨rfl, rfl⟩) h
  | raise fault => exact ⟨rfl, rfl⟩
  | emit event next ih => exact ih h
  | look next ih => exact ih w h
  | item step next ih =>
    cases step with
    | failure failure => exact absurd (.inr ⟨failure, _, rfl⟩) h
    | edit e => exact ⟨rfl, rfl⟩

/-- A stream that starts with an edit is not passed over. -/
theorem draws_commit {name : String} {otherwise : Option Failure → Stream Step}
    {stream : Stream Step} {e : LocatedEdit} {rest : List Step}
    (h : stream.Draws w (.edit e :: rest)) :
    (commit name otherwise stream).Draws w (.edit e :: rest) := by
  have hkept : ¬ Passed (stream.draw w none) := by
    rintro (⟨hitems, -⟩ | ⟨failure, more, hitems⟩)
    · cases h.items.symm.trans hitems
    · cases h.items.symm.trans hitems
  obtain ⟨hitems, hfault⟩ := draw_commit_of_not_passed name otherwise hkept
  exact ⟨hitems.trans h.items, hfault.trans h.fault⟩

/-- The renamers that do not apply are passed over. -/
theorem draws_steps (before : List Renamer) {r : Renamer} {after : List Renamer}
    (hbefore : ∀ other ∈ before, other.range? s offset = none) {range : ByteRange}
    (hrange : r.range? s offset = some range) {e : LocatedEdit} {rest : List Step}
    (h : (r.steps s offset newName).Draws w (.edit e :: rest)) :
    ((renamer (before ++ r :: after)).steps s offset newName).Draws w (.edit e :: rest) := by
  have hdelegate : ∀ last, (delegate s offset newName last (before ++ r :: after)).Draws w
      (.edit e :: rest) := by
    induction before with
    | nil =>
      intro last
      rw [List.nil_append, delegate, hrange]
      exact draws_commit h
    | cons other more ih =>
      obtain ⟨hother, hmore⟩ := List.forall_mem_cons.mp hbefore
      intro last
      rw [List.cons_append, delegate, hother]
      exact ih hmore last
  exact hdelegate none

/-- The edits of a chain are those of one of its renamers. -/
theorem exists_of_edit_mem {renamers : List Renamer} {e : LocatedEdit}
    (h : Step.edit e ∈ (((renamer renamers).steps s offset newName).draw w none).items) :
    ∃ r ∈ renamers, (((renamer renamers).steps s offset newName).draw w none).items =
      ((r.steps s offset newName).draw w none).items := by
  have hgives := Stream.gives_draw w ((renamer renamers).steps s offset newName)
  obtain ⟨r, hr, hsteps⟩ := gives_delegate hgives fun f hfailed => by
    rw [hfailed] at h
    cases List.mem_singleton.mp h
  exact ⟨r, hr, hsteps.eq_draw⟩

end RenameServer.Chain
