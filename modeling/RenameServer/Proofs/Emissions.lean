import RenameServer.Rename.Service

/-!
Which events a computation can emit, whatever the workspace and the disk hold.
A property of events that log entries have carries over from streams to the
jobs that draw them and from jobs to the sequences they form. The two requests
of renaming emit log entries and, if a rename fails, what shows the client the
reason.
-/
namespace RenameServer

variable {α β : Type} {p : Event → Prop}

namespace Job

/-- All events of a job have a property. -/
def Emits (p : Event → Prop) : Job α → Prop
  | .done _ => True
  | .raise _ => True
  | .emit event next => p event ∧ next.Emits p
  | .look next => ∀ w, (next w).Emits p
  | .read _ next => ∀ entry, (next entry).Emits p
  | .pause next => next.Emits p

theorem Emits.imp {p' : Event → Prop} {job : Job α} (h : job.Emits p)
    (hp : ∀ event, p event → p' event) : job.Emits p' := by
  induction job with
  | done a => trivial
  | raise fault => trivial
  | emit event next ih => exact ⟨hp event h.1, ih h.2⟩
  | look next ih => exact fun w => ih w (h w)
  | read path next ih => exact fun entry => ih entry (h entry)
  | pause next ih => exact ih h

theorem Emits.bind {job : Job α} {f : α → Job β} (h : job.Emits p) (hf : ∀ a, (f a).Emits p) :
    (job.bind f).Emits p := by
  induction job with
  | done a => exact hf a
  | raise fault => trivial
  | emit event next ih => exact ⟨h.1, ih h.2⟩
  | look next ih => exact fun w => ih w (h w)
  | read path next ih => exact fun entry => ih entry (h entry)
  | pause next ih => exact ih h

theorem emits_ofExcept (x : Except Fault α) : (ofExcept x).Emits p := by
  cases x <;> trivial

theorem emits_locate (uri : Json) : (locate uri).Emits p := by
  intro w
  dsimp only
  split
  · trivial
  · exact emits_ofExcept _
  · split
    · trivial
    · split
      · trivial
      · exact fun entry => emits_ofExcept _

end Job

namespace RenameService

open Job

theorem emits_tick (every count : Nat) : (tick every count).Emits p := by
  rw [tick]
  split <;> trivial

theorem emits_target (params : Json) : (target params).Emits p :=
  (emits_ofExcept _).bind fun _ => (emits_locate _).bind fun _ => (emits_ofExcept _).bind fun _ =>
    (emits_ofExcept _).bind fun _ => trivial

theorem emits_prepare (hlog : ∀ entry, p (.log entry)) (service : RenameService) (params : Json) :
    (service.prepare params).Emits p := by
  refine (emits_target params).bind fun target => ?_
  dsimp only
  split
  · exact ⟨hlog _, trivial⟩
  · exact (emits_ofExcept _).bind fun _ => trivial

theorem emits_consume (htrace : ∀ text, p (.trace text)) (every : Nat) (edits : List LocatedEdit)
    {s : Stream Step} (h : s.Emits p) : ((pausing every).consume edits s).Emits p := by
  induction s generalizing edits with
  | done => trivial
  | raise fault => trivial
  | emit event rest ih => exact ⟨h.1, ih edits h.2⟩
  | look rest ih => exact fun w => ih w edits (h w)
  | item step rest ih =>
    cases step with
    | failure f => trivial
    | edit e => exact ⟨htrace _, (emits_tick ..).bind fun _ => ih _ h⟩

theorem emits_group (every : Nat) (map : EditMap) (count : Nat) (edits : List LocatedEdit) :
    ((pausing every).group map count edits).Emits p := by
  induction edits generalizing map count with
  | nil => trivial
  | cons e rest ih =>
    rw [group_cons]
    split
    · trivial
    · exact (emits_tick ..).bind fun _ => ih _ _

theorem emits_convertEdits (every : Nat) (lookup : Lookup) (count : Nat)
    (edits : List TextEdit) : ((pausing every).convertEdits lookup count edits).Emits p := by
  induction edits generalizing lookup count with
  | nil => trivial
  | cons e rest ih =>
    exact (emits_ofExcept _).bind fun _ => (emits_tick ..).bind fun _ =>
      (ih ..).bind fun _ => trivial

theorem emits_convert (every count : Nat) (groups : List EditGroup) :
    ((pausing every).convert count groups).Emits p := by
  induction groups generalizing count with
  | nil => trivial
  | cons g rest ih =>
    exact (emits_locate _).bind fun _ => (emits_ofExcept _).bind fun _ =>
      (emits_convertEdits ..).bind fun _ => Emits.bind (fun _ => emits_ofExcept _) fun _ =>
        (ih _).bind fun _ => trivial

/-- A rename emits log entries, what its renamer emits, and what is sent when it fails. -/
theorem emits_rename (hlog : ∀ entry, p (.log entry)) {service : RenameService}
    (hsteps : ∀ s offset newName, (service.renamer.steps s offset newName).Emits p)
    (hsend : ∀ text, (service.send (Message.showError text)).Emits p) (params : Json) :
    (service.rename params).Emits p := by
  have hfail : ∀ failure, (service.fail failure).Emits p := fun failure =>
    ⟨hlog _, (hsend _).bind fun _ => trivial⟩
  refine (emits_target params).bind fun target => (emits_ofExcept _).bind fun newName =>
    (emits_consume (fun _ => hlog _) _ _ (hsteps _ _ _)).bind fun consumed => ?_
  cases consumed with
  | error failure => exact hfail failure
  | ok edits =>
    refine (emits_group ..).bind fun grouped => ?_
    cases grouped with
    | error failure => exact hfail failure
    | ok map => exact ⟨hlog _, (emits_convert ..).bind fun _ => trivial⟩

end RenameService

end RenameServer
