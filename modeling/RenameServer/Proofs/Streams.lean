import RenameServer.Rename.Chain

/-!
What comes out of a stream whose consumer lets others run between two items.
Time is counted in pauses, and `world n` is the workspace after `n` of them. A
stream looks at the workspace of its moment, so the items of a list that it
starts with are given whatever happens, and the rest is given from then on.
-/
namespace RenameServer.Stream

variable {α β : Type}

/-- The items of a stream that is started at the moment `p` and is exhausted, or
fails, at the moment `q`. -/
inductive Gives (world : Nat → Workspace) : Nat → Nat → Stream α → List α → Prop where
  | done (p : Nat) : Gives world p p .done []
  | raise (p : Nat) (fault : Fault) : Gives world p p (.raise fault) []
  | emit {p q : Nat} {rest : Stream α} {items : List α} (event : Event)
    (h : Gives world p q rest items) : Gives world p q (.emit event rest) items
  | look {p q : Nat} {rest : Workspace → Stream α} {items : List α}
    (h : Gives world p q (rest (world p)) items) : Gives world p q (.look rest) items
  | item {p r q : Nat} {rest : Stream α} {items : List α} (a : α) (hr : p ≤ r)
    (h : Gives world r q rest items) : Gives world p q (.item a rest) (a :: items)

variable {world : Nat → Workspace} {p q : Nat}

theorem Gives.le {s : Stream α} {items : List α} (h : Gives world p q s items) : p ≤ q := by
  induction h with
  | done => exact Nat.le_refl _
  | raise => exact Nat.le_refl _
  | emit _ _ ih => exact ih
  | look _ ih => exact ih
  | item _ hr _ ih => exact Nat.le_trans hr ih

/-- The items of a list come first, and the stream after it starts later. -/
theorem Gives.of_prepend {xs items : List α} {s : Stream α}
    (h : Gives world p q (prepend xs s) items) :
    ∃ r ys, p ≤ r ∧ Gives world r q s ys ∧ items = xs ++ ys := by
  induction xs generalizing p items with
  | nil => exact ⟨p, items, Nat.le_refl p, h, rfl⟩
  | cons x xs ih =>
    cases h with
    | item _ hr h =>
      obtain ⟨r, ys, hle, hrest, rfl⟩ := ih h
      exact ⟨r, ys, Nat.le_trans hr hle, hrest, rfl⟩

theorem Gives.of_map {f : α → β} {s : Stream α} {items : List β}
    (h : Gives world p q (s.map f) items) :
    ∃ xs, Gives world p q s xs ∧ items = xs.map f := by
  induction s generalizing p items with
  | done =>
    cases h with
    | done => exact ⟨[], .done _, rfl⟩
  | raise fault =>
    cases h with
    | raise => exact ⟨[], .raise _ _, rfl⟩
  | emit event rest ih =>
    cases h with
    | emit _ h =>
      obtain ⟨xs, hxs, rfl⟩ := ih h
      exact ⟨xs, .emit _ hxs, rfl⟩
  | look rest ih =>
    cases h with
    | look h =>
      obtain ⟨xs, hxs, rfl⟩ := ih _ h
      exact ⟨xs, .look hxs, rfl⟩
  | item a rest ih =>
    cases h with
    | item _ hr h =>
      obtain ⟨xs, hxs, rfl⟩ := ih h
      exact ⟨a :: xs, .item a hr hxs, rfl⟩

theorem ofList_eq_prepend (xs : List α) : ofList xs = prepend xs .done := by
  induction xs with
  | nil => rfl
  | cons x xs ih => rw [ofList, ih, prepend]

/-- Drawing everything at once is one way to exhaust a stream. -/
theorem gives_draw (w : Workspace) (s : Stream α) :
    Gives (fun _ => w) 0 0 s (s.draw w none).items := by
  induction s with
  | done => exact .done 0
  | raise fault => exact .raise 0 fault
  | emit event rest ih => exact .emit event ih
  | look rest ih => exact .look (ih w)
  | item a rest ih => exact .item a (Nat.le_refl 0) ih

/-- While the workspace stays as it is, there is no other way. -/
theorem Gives.eq_draw {w : Workspace} {s : Stream α} {items : List α}
    (h : Gives (fun _ => w) p q s items) : items = (s.draw w none).items := by
  induction s generalizing p items with
  | done => cases h; rfl
  | raise fault => cases h; rfl
  | emit event rest ih =>
    cases h with
    | emit _ h => exact ih h
  | look rest ih =>
    cases h with
    | look h => exact ih w h
  | item a rest ih =>
    cases h with
    | item _ _ h => exact congrArg (a :: ·) (ih h)

end RenameServer.Stream

namespace RenameServer.Chain

variable {world : Nat → Workspace} {p q : Nat}

/-- A committed stream gives what the stream gives, or it leaves the word to others. -/
theorem gives_commit {name : String} {otherwise : Option Failure → Stream Step} {s : Stream Step}
    {items : List Step} (h : (commit name otherwise s).Gives world p q items) :
    s.Gives world p q items ∨ ∃ f, (otherwise f).Gives world p q items := by
  induction s generalizing items with
  | done =>
    cases h with
    | emit _ h => exact .inr ⟨none, h⟩
  | raise fault =>
    cases h with
    | raise => exact .inl (.raise _ _)
  | emit event rest ih =>
    cases h with
    | emit _ h => exact (ih h).imp (.emit _) id
  | look rest ih =>
    cases h with
    | look h => exact (ih _ h).imp .look id
  | item a rest =>
    cases a with
    | failure f =>
      cases h with
      | emit _ h => exact .inr ⟨some f, h⟩
    | edit e =>
      cases h with
      | emit _ h => exact .inl h

theorem gives_delegate {renamers : List Renamer} {s : Source} {offset : Int} {newName : Json}
    {last : Option Failure} {items : List Step}
    (h : (delegate s offset newName last renamers).Gives world p q items)
    (hedits : ∀ f, items ≠ [.failure f]) :
    ∃ r ∈ renamers, (r.steps s offset newName).Gives world p q items := by
  induction renamers generalizing last with
  | nil =>
    cases h with
    | item _ _ hrest =>
      cases hrest
      exact absurd rfl (hedits _)
  | cons r rest ih =>
    have hlater : ∀ last, (delegate s offset newName last rest).Gives world p q items →
        ∃ r' ∈ r :: rest, (r'.steps s offset newName).Gives world p q items := by
      intro last h
      obtain ⟨r', hr', h'⟩ := ih h
      exact ⟨r', List.mem_cons_of_mem _ hr', h'⟩
    rw [delegate] at h
    split at h
    · exact hlater last h
    · rcases gives_commit h with h | ⟨f, h⟩
      · exact ⟨r, List.mem_cons_self .., h⟩
      · exact hlater _ h

/-- Edits from a chain all come from one of its renamers. -/
theorem gives_steps {renamers : List Renamer} {s : Source} {offset : Int} {newName : Json}
    {items : List Step} (h : ((renamer renamers).steps s offset newName).Gives world p q items)
    (hedits : ∀ f, Step.failure f ∉ items) :
    ∃ r ∈ renamers, (r.steps s offset newName).Gives world p q items :=
  gives_delegate h fun f hfailed => hedits f (hfailed ▸ List.mem_singleton_self _)

end RenameServer.Chain
