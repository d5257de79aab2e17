import RenameServer.Proofs.Courses

/-!
Jobs with notes. A note says that an edit has been handled in a phase of a rename; it does
nothing, and without its notes a noted job is a job. While nobody else acts, the account of a
noted job has its notes in portions, one for each stretch between two pauses. Where a loop pauses
after every so many edits, no portion has more notes of its phase.
-/
namespace RenameServer

/-- The edits that a phase handles, when `k` are drawn and `m` of them are different. -/
def Phase.edits (k m : Nat) : Phase → Nat
  | .drawing | .grouping => k
  | .converting => m

/-- A job that notes the edits that it has handled. -/
inductive Noted (α : Type) where
  | done (value : α)
  | raise (fault : Fault)
  | emit (event : Event) (next : Noted α)
  | look (next : Workspace → Noted α)
  | read (path : String) (next : FileEntry → Noted α)
  | pause (next : Noted α)
  | note (phase : Phase) (next : Noted α)

/-- Notes in portions, the last of which is still open, and the messages to the client. -/
structure Account where
  closed : List (List Phase)
  current : List Phase
  sent : List Json

namespace Account

def empty : Account := ⟨[], [], []⟩

def portions (a : Account) : List (List Phase) := a.closed ++ [a.current]

def close (a : Account) : Account := { a with closed := a.closed ++ [a.current], current := [] }

def note (phase : Phase) (a : Account) : Account := { a with current := phase :: a.current }

def send (messages : List Json) (a : Account) : Account := { a with sent := a.sent ++ messages }

theorem send_nil (a : Account) : a.send [] = a := by
  rw [send, List.append_nil]

theorem send_send (xs ys : List Json) (a : Account) : (a.send xs).send ys = a.send (xs ++ ys) := by
  rw [send, send, send, List.append_assoc]

end Account

namespace Noted

variable {α β : Type}

protected def bind : Noted α → (α → Noted β) → Noted β
  | .done a, f => f a
  | .raise fault, _ => .raise fault
  | .emit event next, f => .emit event (next.bind f)
  | .look next, f => .look fun w => (next w).bind f
  | .read path next, f => .read path fun entry => (next entry).bind f
  | .pause next, f => .pause (next.bind f)
  | .note phase next, f => .note phase (next.bind f)

instance : Monad Noted where
  pure := .done
  bind := Noted.bind

/-- A job without notes. -/
def ofJob : Job α → Noted α
  | .done a => .done a
  | .raise fault => .raise fault
  | .emit event next => .emit event (ofJob next)
  | .look next => .look fun w => ofJob (next w)
  | .read path next => .read path fun entry => ofJob (next entry)
  | .pause next => .pause (ofJob next)

/-- The job that is noted. -/
def forget : Noted α → Job α
  | .done a => .done a
  | .raise fault => .raise fault
  | .emit event next => .emit event next.forget
  | .look next => .look fun w => (next w).forget
  | .read path next => .read path fun entry => (next entry).forget
  | .pause next => .pause next.forget
  | .note _ next => next.forget

theorem forget_bind (x : Noted α) (f : α → Noted β) :
    (x >>= f).forget = x.forget >>= fun a => (f a).forget := by
  induction x with
  | done a => rfl
  | raise fault => rfl
  | emit event next ih => exact congrArg (Job.emit event) ih
  | look next ih => exact congrArg Job.look (funext ih)
  | read path next ih => exact congrArg (Job.read path) (funext ih)
  | pause next ih => exact congrArg Job.pause ih
  | note phase next ih => exact ih

theorem forget_ofJob (job : Job α) : (ofJob job).forget = job := by
  induction job with
  | done a => rfl
  | raise fault => rfl
  | emit event next ih => exact congrArg (Job.emit event) ih
  | look next ih => exact congrArg Job.look (funext ih)
  | read path next ih => exact congrArg (Job.read path) (funext ih)
  | pause next ih => exact congrArg Job.pause ih

/-- The account and the result of a noted job while nobody else acts. -/
def account (disk : Job.Disk) (w : Workspace) (a : Account) : Noted α → Account × Except Fault α
  | .done value => (a, .ok value)
  | .raise fault => (a, .error fault)
  | .emit event next => next.account disk w (a.send event.message?.toList)
  | .look next => (next w).account disk w a
  | .read path next => (next (disk path)).account disk w a
  | .pause next => next.account disk w a.close
  | .note phase next => next.account disk w (a.note phase)

variable {disk : Job.Disk} {w : Workspace} {a : Account}

theorem account_bind_of_ok {x : Noted α} {a' : Account} {value : α}
    (h : x.account disk w a = (a', .ok value)) (f : α → Noted β) :
    (x >>= f).account disk w a = (f value).account disk w a' := by
  induction x generalizing a with
  | done value' =>
    cases h
    rfl
  | raise fault => cases h
  | emit event next ih => exact ih h
  | look next ih => exact ih w h
  | read path next ih => exact ih _ h
  | pause next ih => exact ih h
  | note phase next ih => exact ih h

/-- The account of a noted job gives the course of the job. -/
theorem course_forget (x : Noted α) (a : Account) (p : Nat) :
    let c := x.forget.course disk (fun _ => w) p
    let r := x.account disk w a
    r.1.sent = a.sent ++ c.sent ∧ r.1.closed.length + p = a.closed.length + c.moment ∧
      r.2 = c.result := by
  induction x generalizing a p with
  | done value => exact ⟨(List.append_nil _).symm, rfl, rfl⟩
  | raise fault => exact ⟨(List.append_nil _).symm, rfl, rfl⟩
  | emit event next ih =>
    obtain ⟨hsent, hclosed, hresult⟩ := ih (a.send event.message?.toList) p
    exact ⟨hsent.trans (List.append_assoc ..), hclosed, hresult⟩
  | look next ih => exact ih w a p
  | read path next ih => exact ih (disk path) a p
  | pause next ih =>
    obtain ⟨hsent, hclosed, hresult⟩ := ih a.close (p + 1)
    have hlength : a.close.closed.length = a.closed.length + 1 := List.length_append
    refine ⟨hsent, ?_, hresult⟩
    rw [hlength] at hclosed
    change (next.account disk w a.close).1.closed.length + p =
      a.closed.length + (next.forget.course disk (fun _ => w) (p + 1)).moment
    omega
  | note phase next ih => exact ih (a.note phase) p

/-- A job that nobody disturbs pauses between its slices. -/
theorem moment_course (job : Job α) (p : Nat) :
    (job.course disk (fun _ => w) p).moment = p + (job.slices disk w).later.length := by
  induction job generalizing p with
  | done value => rfl
  | raise fault => rfl
  | emit event next ih => exact ih p
  | look next ih => exact ih w p
  | read path next ih => exact ih (disk path) p
  | pause next ih =>
    rw [Job.course, ih, Job.slices, List.length_cons]
    omega

/-- What the account says of the run of a job that nobody disturbs. -/
theorem run_forget (disk : Job.Disk) (w : Workspace) (x : Noted α) :
    let r := x.forget.run disk Job.alone 0 w
    let after := x.account disk w .empty
    r.result = after.2 ∧ r.events.filterMap Event.message? = after.1.sent ∧
      (x.forget.slices disk w).later.length = after.1.closed.length := by
  obtain ⟨hsent, hclosed, hresult⟩ := @course_forget _ disk w x .empty 0
  obtain ⟨hrun, hmessages⟩ := @Job.run_course _ disk 0 Job.alone w x.forget
  rw [Job.worlds_alone] at hrun hmessages
  refine ⟨hrun.trans hresult.symm, hmessages.trans hsent.symm, ?_⟩
  have hempty : Account.empty.closed.length = 0 := rfl
  rw [moment_course] at hclosed
  omega

theorem le_moment (job : Job α) (world : Nat → Workspace) (p : Nat) :
    p ≤ (job.course disk world p).moment := by
  induction job generalizing p with
  | done value => exact Nat.le_refl p
  | raise fault => exact Nat.le_refl p
  | emit event next ih => exact ih p
  | look next ih => exact ih (world p) p
  | read path next ih => exact ih (disk path) p
  | pause next ih => exact Nat.le_of_succ_le (ih (p + 1))

/-- A job that neither pauses nor sends leaves the account as it is. -/
theorem account_ofJob {job : Job α} {value : α}
    (h : job.course disk (fun _ => w) 0 = ⟨[], 0, .ok value⟩) :
    (ofJob job).account disk w a = (a, .ok value) := by
  obtain ⟨hsent, hmoment, hresult⟩ : (job.course disk (fun _ => w) 0).sent = [] ∧
      (job.course disk (fun _ => w) 0).moment = 0 ∧
      (job.course disk (fun _ => w) 0).result = .ok value := by
    rw [h]
    exact ⟨rfl, rfl, rfl⟩
  clear h
  induction job with
  | done value' =>
    cases hresult
    rfl
  | raise fault => cases hresult
  | emit event next ih =>
    obtain ⟨hevent, hnext⟩ := List.append_eq_nil_iff.mp hsent
    rw [ofJob, account, hevent, Account.send_nil]
    exact ih hnext hmoment hresult
  | look next ih => exact ih w hsent hmoment hresult
  | read path next ih => exact ih (disk path) hsent hmoment hresult
  | pause next ih => exact absurd hmoment (Nat.ne_of_gt (le_moment next _ 1))

end Noted

namespace Account

/-! ### A loop that pauses -/

/-- An edit is handled after `count` others in a phase that pauses after every so many. -/
def handle (every : Nat) (phase : Phase) (count : Nat) (a : Account) : Account :=
  if (count + 1) % every = 0 then (a.note phase).close else a.note phase

/-- Some edits are handled one after the other. -/
def handleAll (every : Nat) (phase : Phase) : Nat → Nat → Account → Account
  | _, 0, a => a
  | count, k + 1, a => handleAll every phase (count + 1) k (a.handle every phase count)

variable {every base count : Nat} {phase : Phase} {a : Account}

theorem handleAll_add (every : Nat) (phase : Phase) (count k l : Nat) (a : Account) :
    a.handleAll every phase count (k + l) =
      (a.handleAll every phase count k).handleAll every phase (count + k) l := by
  induction k generalizing count a with
  | zero => rw [Nat.zero_add]; rfl
  | succ k ih =>
    rw [Nat.succ_add, handleAll, handleAll, ih, Nat.add_assoc, Nat.add_comm 1]

theorem handle_send (messages : List Json) :
    (a.send messages).handle every phase count = (a.handle every phase count).send messages := by
  rw [handle, handle]
  split <;> rfl

/-- Messages do not matter for the notes. -/
theorem handleAll_send (messages : List Json) (k : Nat) :
    (a.send messages).handleAll every phase count k =
      (a.handleAll every phase count k).send messages := by
  induction k generalizing count a with
  | zero => rfl
  | succ k ih => rw [handleAll, handleAll, handle_send, ih]

theorem sent_handleAll (k : Nat) : (a.handleAll every phase count k).sent = a.sent := by
  induction k generalizing count a with
  | zero => rfl
  | succ k ih =>
    rw [handleAll, ih, handle]
    split <;> rfl

/-- The notes of a phase, in all portions together. -/
def total (phase : Phase) (a : Account) : Nat := a.portions.flatten.count phase

theorem total_eq (phase : Phase) (a : Account) :
    a.total phase = a.closed.flatten.count phase + a.current.count phase := by
  rw [total, portions, List.flatten_append, List.flatten_singleton, List.count_append]

theorem total_handle (other : Phase) :
    (a.handle every phase count).total other = a.total other + if other = phase then 1 else 0 := by
  have hnote : (a.note phase).total other = a.total other + if other = phase then 1 else 0 := by
    rw [total_eq, total_eq, note]
    by_cases hphase : other = phase
    · rw [hphase, if_pos rfl, List.count_cons_self, Nat.add_assoc]
    · rw [if_neg hphase, List.count_cons_of_ne (Ne.symm hphase), Nat.add_zero]
  rw [← hnote, handle]
  split
  · rw [total, total, close, portions, portions, List.flatten_concat, List.append_nil]
  · rfl

theorem total_handleAll (other : Phase) (k : Nat) :
    (a.handleAll every phase count k).total other =
      a.total other + if other = phase then k else 0 := by
  induction k generalizing count a with
  | zero => rw [handleAll, ite_self, Nat.add_zero]
  | succ k ih =>
    rw [handleAll, ih, total_handle]
    split <;> omega

/-- After `count` edits in a phase there have been `count / every` pauses since its start, and
no portion has more than `every` notes of any phase. -/
structure Paced (every : Nat) (phase : Phase) (base count : Nat) (a : Account) : Prop where
  pauses : a.closed.length = base + count / every
  current : a.current.count phase = count % every
  bounded : ∀ portion ∈ a.portions, ∀ other, portion.count other ≤ every

theorem Paced.handle (hevery : 0 < every) (h : a.Paced every phase base count) :
    (a.handle every phase count).Paced every phase base (count + 1) := by
  have hlt := Nat.mod_lt count hevery
  have hclosed : ∀ portion ∈ a.closed, ∀ other, portion.count other ≤ every :=
    fun portion hportion => h.bounded portion (List.mem_append_left _ hportion)
  -- The open portion has fewer notes of the phase than it may have, so there is room for one.
  have hnoted : ∀ other, (phase :: a.current).count other ≤ every := by
    intro other
    by_cases hother : other = phase
    · rw [hother, List.count_cons_self, h.current]
      omega
    · rw [List.count_cons_of_ne (Ne.symm hother)]
      exact h.bounded _ (List.mem_append_right _ (List.mem_singleton_self _)) other
  rw [Account.handle]
  split
  · next hpause =>
    refine ⟨?_, hpause.symm, ?_⟩
    · have hlength : (a.note phase).close.closed.length = a.closed.length + 1 :=
        List.length_append
      rw [hlength, h.pauses, Nat.succ_div, if_pos (Nat.dvd_of_mod_eq_zero hpause), Nat.add_assoc]
    · intro portion hportion other
      rcases List.mem_append.mp hportion with hportion | hportion
      · rcases List.mem_append.mp hportion with hportion | hportion
        · exact hclosed portion hportion other
        · rw [List.mem_singleton.mp hportion]
          exact hnoted other
      · rw [List.mem_singleton.mp hportion]
        exact Nat.zero_le every
  · next hpause =>
    refine ⟨?_, ?_, ?_⟩
    · rw [Nat.succ_div, if_neg (mt Nat.mod_eq_zero_of_dvd hpause), Nat.add_zero]
      exact h.pauses
    · have hmod := Nat.mod_add_mod count every 1
      have hsmall : count % every + 1 < every := by
        refine Nat.lt_of_le_of_ne hlt fun hfull => hpause ?_
        rw [← hmod, hfull, Nat.mod_self]
      rw [← hmod, Nat.mod_eq_of_lt hsmall, note, List.count_cons_self, h.current]
    · intro portion hportion other
      rcases List.mem_append.mp hportion with hportion | hportion
      · exact hclosed portion hportion other
      · rw [List.mem_singleton.mp hportion]
        exact hnoted other

theorem Paced.handleAll (hevery : 0 < every) (h : a.Paced every phase base count) (k : Nat) :
    (a.handleAll every phase count k).Paced every phase base (count + k) := by
  induction k generalizing count a with
  | zero => exact h
  | succ k ih =>
    have hrest := ih (h.handle hevery)
    rwa [Nat.add_assoc, Nat.add_comm 1] at hrest

/-- A phase that has no notes yet may start. -/
theorem Paced.start (h : a.Paced every phase base count) {next : Phase}
    (hnext : a.total next = 0) : a.Paced every next (base + count / every) 0 := by
  refine ⟨?_, ?_, h.bounded⟩
  · rw [h.pauses, Nat.zero_div, Nat.add_zero]
  · rw [total_eq] at hnext
    rw [Nat.zero_mod]
    omega

theorem paced_empty (every : Nat) (phase : Phase) : empty.Paced every phase 0 0 where
  pauses := by rw [Nat.zero_div]; rfl
  current := (Nat.zero_mod every).symm
  bounded := List.forall_mem_singleton.mpr fun _ => Nat.zero_le every

/-- The three phases, one after the other. -/
def handlePhases (every k m : Nat) : Account :=
  let grouped := (empty.handleAll every .drawing 0 k).handleAll every .grouping 0 k
  grouped.handleAll every .converting 0 m

theorem sent_handlePhases (every k m : Nat) : (handlePhases every k m).sent = [] := by
  rw [handlePhases, sent_handleAll, sent_handleAll, sent_handleAll]
  rfl

theorem total_handlePhases (every k m : Nat) (phase : Phase) :
    (handlePhases every k m).total phase = phase.edits k m := by
  have hempty : empty.total phase = 0 := rfl
  rw [handlePhases, total_handleAll, total_handleAll, total_handleAll, hempty]
  cases phase <;> simp [Phase.edits]

/-- Each phase starts with a count of its own. -/
theorem paced_handlePhases {every : Nat} (hevery : 0 < every) (k m : Nat) :
    (handlePhases every k m).Paced every .converting (k / every + k / every) m := by
  have hdrawn := (paced_empty every .drawing).handleAll hevery k
  have hgrouping : (empty.handleAll every .drawing 0 k).total .grouping = 0 := by
    rw [total_handleAll]
    rfl
  have hgrouped := (hdrawn.start hgrouping).handleAll hevery k
  have hconverting : ((empty.handleAll every .drawing 0 k).handleAll every .grouping 0 k).total
      .converting = 0 := by
    rw [total_handleAll, total_handleAll]
    rfl
  have hconverted := (hgrouped.start hconverting).handleAll hevery m
  rw [handlePhases]
  simpa only [Nat.zero_add] using hconverted

end Account

end RenameServer
