import Mathlib.Data.List.Perm.Subperm
import RenameServer.Proofs.Emissions
import RenameServer.Proofs.Outcomes
import RenameServer.Session

/-!
Jobs that reply at most once. A reply is a message with an id; what the client
is only told has none. The job of a request sends one reply, under the id of the
request, as the last thing it does, or it is ended by a fault before. Jobs that
run together send what each of them sends alone, in some order; if they are cut
off, they send some of it.
-/
namespace RenameServer

namespace Event

/-- A message to the client that has an id, and the id. -/
def reply? (e : Event) : Option (Json × Json) :=
  e.message?.bind fun m => (m.field? "id").map fun id => (id, m)

def replies (events : List Event) : List (Json × Json) := events.filterMap reply?

/-- An event that is no reply. -/
def Silent (e : Event) : Prop := e.reply? = none

theorem silent_log (entry : Log.Entry) : Silent (.log entry) := rfl

theorem silent_paused : Silent .paused := rfl

/-- What is no message to the client is no reply. -/
theorem silent_of_message? {e : Event} (h : e.message? = none) : e.Silent := by
  rw [Silent, reply?, h]
  rfl

theorem replies_append (xs ys : List Event) : replies (xs ++ ys) = replies xs ++ replies ys :=
  List.filterMap_append

theorem replies_cons_of_silent {e : Event} (h : e.Silent) (events : List Event) :
    replies (e :: events) = replies events := List.filterMap_cons_none h

theorem replies_eq_nil {events : List Event} (h : ∀ e ∈ events, e.Silent) :
    replies events = [] := List.filterMap_eq_nil_iff.mpr h

end Event

open Event

namespace Job

variable {α β : Type} {disk : Disk} {w : Workspace} {id : Json}

/-! ### One job -/

/-- A job that sends one reply under an id, as the last thing it does, unless a fault
ends it before. -/
def Answers (id : Json) : Job Unit → Prop
  | .done _ => False
  | .raise _ => True
  | .emit event next =>
    (∃ message, event.reply? = some (id, message)) ∧ next = .done () ∨
      event.Silent ∧ next.Answers id
  | .look next => ∀ w, (next w).Answers id
  | .read _ next => ∀ entry, (next entry).Answers id
  | .pause next => next.Answers id

/-- A job that replies after another one has ended, in whatever way. -/
theorem answers_attempt_bind {job : Job α} (h : job.Emits Silent)
    {f : Except Fault α → Job Unit} (hf : ∀ r, (f r).Answers id) :
    (job.attempt.bind f).Answers id := by
  induction job with
  | done a => exact hf (.ok a)
  | raise fault => exact hf (.error fault)
  | emit event next ih => exact .inr ⟨h.1, ih h.2⟩
  | look next ih => exact fun w => ih w (h w)
  | read path next ih => exact fun entry => ih entry (h entry)
  | pause next ih => exact ih h

theorem Answers.stopAt {job : Job Unit} (h : job.Answers id) (fails : Event → Bool)
    (fault : Fault) : (job.stopAt fails fault).Answers id := by
  induction job with
  | done a => cases h
  | raise fault => trivial
  | emit event next ih =>
    rw [Job.stopAt]
    split
    · trivial
    · rcases h with ⟨hreply, rfl⟩ | ⟨hsilent, hnext⟩
      · exact .inl ⟨hreply, rfl⟩
      · exact .inr ⟨hsilent, ih hnext⟩
  | look next ih => exact fun w => ih w (h w)
  | read path next ih => exact fun entry => ih entry (h entry)
  | pause next ih => exact ih h

/-- Either a job replies, or a fault ends it. -/
theorem Answers.cases {job : Job Unit} (h : job.Answers id) (disk : Disk) (p : Nat)
    (w : Workspace) :
    (∃ message, replies (job.run disk alone p w).events = [(id, message)] ∧
        job.outcome disk w = .ok ()) ∨
      replies (job.run disk alone p w).events = [] ∧
        ∃ fault, job.outcome disk w = .error fault := by
  induction job generalizing p with
  | done a => cases h
  | raise fault => exact .inr ⟨rfl, fault, rfl⟩
  | emit event next ih =>
    rcases h with ⟨⟨message, hreply⟩, rfl⟩ | ⟨hsilent, h⟩
    · exact .inl ⟨message, List.filterMap_cons_some hreply, rfl⟩
    · have hnext := ih h p
      rw [← replies_cons_of_silent hsilent] at hnext
      exact hnext
  | look next ih => exact ih w (h w) p
  | read path next ih => exact ih (disk path) (h (disk path)) p
  | pause next ih => exact ih h (p + 1)

theorem stopAt_of_writable {fails : Event → Bool} (h : ∀ e, fails e = false) (fault : Fault)
    (job : Job α) : job.stopAt fails fault = job := by
  induction job with
  | done a => rfl
  | raise fault => rfl
  | emit event next ih => rw [stopAt, h, ih]; rfl
  | look next ih => exact congrArg Job.look (funext ih)
  | read path next ih => exact congrArg (Job.read path) (funext ih)
  | pause next ih => exact congrArg Job.pause ih

/-- Trying a job gives its outcome. -/
theorem outcome_attempt (job : Job α) : job.attempt.outcome disk w = .ok (job.outcome disk w) := by
  induction job with
  | done a => rfl
  | raise fault => rfl
  | emit event next ih => exact ih
  | look next ih => exact ih w
  | read path next ih => exact ih (disk path)
  | pause next ih => exact ih

/-! ### The slices of a job -/

/-- The slices of a job are its run, cut at the pauses. -/
theorem replies_slices (job : Job α) (p : Nat) :
    replies (job.slices disk w).all.flatten = replies (job.run disk alone p w).events := by
  induction job generalizing p with
  | done a => rfl
  | raise fault => rfl
  | emit event next ih =>
    change replies ([event] ++ (next.slices disk w).all.flatten) =
      replies ([event] ++ (next.run disk alone p w).events)
    rw [replies_append, replies_append, ih p]
  | look next ih => exact ih w p
  | read path next ih => exact ih (disk path) p
  | pause next ih => exact (ih (p + 1)).trans (replies_cons_of_silent silent_paused _).symm

theorem fault_slices (job : Job α) :
    (job.slices disk w).fault = none ↔ ∃ a, job.outcome disk w = .ok a := by
  induction job with
  | done a => exact iff_of_true rfl ⟨a, rfl⟩
  | raise fault =>
    refine iff_of_false (fun h => by cases h) ?_
    rintro ⟨a, h⟩
    cases h
  | emit event next ih => exact ih
  | look next ih => exact ih w
  | read path next ih => exact ih (disk path)
  | pause next ih => exact ih

/-! ### Rounds -/

theorem flatMap_range_getD {t : List (List α)} {n : Nat} (h : t.length ≤ n) :
    (List.range n).flatMap (fun k => t.getD k []) = t.flatten := by
  induction t generalizing n with
  | nil => simp
  | cons x rest ih =>
    obtain ⟨m, rfl⟩ : ∃ m, n = m + 1 := ⟨n - 1, by simp at h; omega⟩
    rw [List.range_succ_eq_map, List.flatMap_cons, List.flatMap_map, List.flatten_cons,
      ← ih (Nat.le_of_succ_le_succ h)]
    rfl

theorem flatMap_swap_perm {γ : Type} (xs : List α) (ys : List β) (f : α → β → List γ) :
    (xs.flatMap fun x => ys.flatMap fun y => f x y).Perm
      (ys.flatMap fun y => xs.flatMap fun x => f x y) := by
  induction ys with
  | nil => simp
  | cons y rest ih =>
    simp only [List.flatMap_cons]
    exact (List.flatMap_append_perm xs _ _).symm.trans (ih.append_left _)

theorem length_le_mostRounds {t : List (List Event)} {jobs : List (List (List Event))}
    (h : t ∈ jobs) : t.length ≤ mostRounds jobs := by
  induction jobs with
  | nil => cases h
  | cons first rest ih =>
    change t.length ≤ max first.length (mostRounds rest)
    rcases List.mem_cons.mp h with rfl | h
    · exact Nat.le_max_left ..
    · exact Nat.le_trans (ih h) (Nat.le_max_right ..)

/-- Rounds only change the order of what the jobs do, if there are enough of them. -/
theorem interleave_perm {n : Nat} {jobs : List (List (List Event))} (h : mostRounds jobs ≤ n) :
    (interleave n jobs).Perm (jobs.flatMap List.flatten) := by
  refine (flatMap_swap_perm _ _ _).trans (List.Perm.of_eq ?_)
  exact List.flatMap_congr fun t ht => flatMap_range_getD (Nat.le_trans (length_le_mostRounds ht) h)

/-- Fewer rounds do the first part of it. -/
theorem interleave_isPrefix {m n : Nat} (h : m ≤ n) (jobs : List (List (List Event))) :
    interleave m jobs <+: interleave n jobs := by
  obtain ⟨k, rfl⟩ := Nat.exists_eq_add_of_le h
  rw [interleave, interleave, List.range_add, List.flatMap_append]
  exact List.prefix_append _ _

theorem interleave_subperm (n : Nat) (jobs : List (List (List Event))) :
    (interleave n jobs).Subperm (jobs.flatMap List.flatten) := by
  have hfirst := interleave_isPrefix (Nat.le_max_left n (mostRounds jobs)) jobs
  exact hfirst.sublist.subperm.trans (interleave_perm (Nat.le_max_right ..)).subperm

theorem interleave_singleton (t : List (List Event)) :
    interleave (mostRounds [t]) [t] = t.flatten := by
  simp only [interleave, List.flatMap_singleton]
  exact flatMap_range_getD (length_le_mostRounds (List.mem_singleton_self t))

/-! ### Jobs together -/

/-- What jobs reply if each of them runs alone. -/
def repliesApart (disk : Disk) (w : Workspace) (jobs : List (Job α)) : List (Json × Json) :=
  jobs.flatMap fun job => replies (job.run disk alone 0 w).events

theorem replies_flatMap_slices (jobs : List (Job α)) :
    replies (((jobs.map (slices disk w)).map Slices.all).flatMap List.flatten) =
      repliesApart disk w jobs := by
  rw [List.map_map, List.flatMap_map, replies, List.filterMap_flatMap]
  exact List.flatMap_congr fun job _ => replies_slices job 0

/-- Jobs that run together reply at most as they do alone. -/
theorem replies_together_subperm (limit : Option Nat → Option Nat) (jobs : List (Job α)) :
    (replies (together disk w limit jobs).1).Subperm (repliesApart disk w jobs) := by
  rw [← replies_flatMap_slices]
  obtain ⟨events, hperm, hsublist⟩ := interleave_subperm
    ((limit ((firstFailure (jobs.map (slices disk w))).map Prod.fst)).getD
      (mostRounds ((jobs.map (slices disk w)).map Slices.all)))
    ((jobs.map (slices disk w)).map Slices.all)
  exact ⟨replies events, hperm.filterMap _, hsublist.filterMap _⟩

/-- If they are not cut off, they reply as they do alone. -/
theorem replies_together_perm {limit : Option Nat → Option Nat} {jobs : List (Job α)}
    (h : limit ((firstFailure (jobs.map (slices disk w))).map Prod.fst) = none) :
    (replies (together disk w limit jobs).1).Perm (repliesApart disk w jobs) := by
  rw [← replies_flatMap_slices]
  unfold together
  dsimp only
  rw [h]
  exact (interleave_perm (Nat.le_refl _)).filterMap _

theorem replies_together_singleton {limit : Option Nat → Option Nat} {job : Job α}
    (h : limit ((firstFailure [job.slices disk w]).map Prod.fst) = none) :
    replies (together disk w limit [job]).1 = replies (job.run disk alone 0 w).events := by
  rw [← replies_slices job 0]
  unfold together
  simp only [List.map_cons, List.map_nil, h]
  exact congrArg replies (interleave_singleton _)

theorem earlier_eq_none {f g : Option (Nat × Fault)} :
    earlier f g = none ↔ f = none ∧ g = none := by
  cases f with
  | none => cases g <;> simp [earlier]
  | some f =>
    cases g with
    | none => simp [earlier]
    | some g =>
      rw [earlier]
      split <;> simp

theorem firstFailure_eq_none {runs : List Slices} :
    firstFailure runs = none ↔ ∀ s ∈ runs, s.fault = none := by
  induction runs with
  | nil => exact iff_of_true rfl (List.forall_mem_nil _)
  | cons s runs ih =>
    change earlier s.failure? (firstFailure runs) = none ↔ _
    rw [earlier_eq_none, ih, List.forall_mem_cons, Slices.failure?, Option.map_eq_none_iff]

/-- There is no first failure if no job fails. -/
theorem firstFailure_slices {jobs : List (Job α)} :
    firstFailure (jobs.map (slices disk w)) = none ↔
      ∀ job ∈ jobs, ∃ a, job.outcome disk w = .ok a := by
  rw [firstFailure_eq_none, List.forall_mem_map]
  exact forall₂_congr fun job _ => fault_slices job

end Job

end RenameServer
