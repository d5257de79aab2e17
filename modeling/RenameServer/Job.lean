import RenameServer.Workspace

/-!
Computations that run in slices. Between two pauses a job may log and send,
look at the open documents and read files; at a pause it lets others run, and
what it looked at before may have changed when it goes on. A job never changes
the workspace itself.
-/
namespace RenameServer

inductive Job (α : Type) where
  | done (value : α)
  | raise (fault : Fault)
  | emit (event : Event) (next : Job α)
  | look (next : Workspace → Job α)
  | read (path : String) (next : FileEntry → Job α)
  | pause (next : Job α)

namespace Job

variable {α β : Type}

protected def bind : Job α → (α → Job β) → Job β
  | .done a, f => f a
  | .raise fault, _ => .raise fault
  | .emit event next, f => .emit event (next.bind f)
  | .look next, f => .look fun w => (next w).bind f
  | .read path next, f => .read path fun entry => (next entry).bind f
  | .pause next, f => .pause (next.bind f)

instance : Monad Job where
  pure := .done
  bind := Job.bind

def ofExcept : Except Fault α → Job α
  | .ok a => .done a
  | .error fault => .raise fault

def report (event : Event) : Job Unit := .emit event (.done ())

/-- A job that ends with the fault instead of being stopped by it. -/
def attempt : Job α → Job (Except Fault α)
  | .done a => .done (.ok a)
  | .raise fault => .done (.error fault)
  | .emit event next => .emit event next.attempt
  | .look next => .look fun w => (next w).attempt
  | .read path next => .read path fun entry => (next entry).attempt
  | .pause next => .pause next.attempt

/-- The document at a URI: the open one, or else the file that the URI names. No file
has a NUL in its path. -/
def locate (uri : Json) : Job Document :=
  .look fun w =>
    match w.has uri with
    | .error fault => .raise fault
    | .ok true => ofExcept (w.get uri)
    | .ok false =>
      match Uri.pathOf uri with
      | .error fault => .raise fault
      | .ok path =>
        if path.toList.contains '\x00' then .raise .nulInPath
        else .read path fun entry => ofExcept (Document.ofFile uri entry)

/-- Files by path. -/
abbrev Disk := String → FileEntry

/-- What others do at each pause, counted from one. -/
abbrev Schedule := Nat → List Workspace.Operation

/-- A finished run: what was observed, the workspace at the end, and the result. -/
structure Run (α : Type) where
  events : List Event
  workspace : Workspace
  result : Except Fault α

/-- The events of operations at a pause. -/
def interlude (ops : List Workspace.Operation) : List Event :=
  .paused :: ops.flatMap Workspace.Operation.announce

/-- Run a job that has paused `pauses` times, with others acting at its pauses. -/
def run (disk : Disk) (schedule : Schedule) (pauses : Nat) (w : Workspace) : Job α → Run α
  | .done a => ⟨[], w, .ok a⟩
  | .raise fault => ⟨[], w, .error fault⟩
  | .emit event next =>
    let r := next.run disk schedule pauses w
    { r with events := event :: r.events }
  | .look next => (next w).run disk schedule pauses w
  | .read path next => (next (disk path)).run disk schedule pauses w
  | .pause next =>
    let ops := schedule (pauses + 1)
    let r := next.run disk schedule (pauses + 1) (ops.foldl Workspace.Operation.run w)
    { r with events := interlude ops ++ r.events }

/-- Nobody else acts. -/
def alone : Schedule := fun _ => []

/-- A job that is stopped by a fault where it would emit an event that fails. -/
def stopAt (fails : Event → Bool) (fault : Fault) : Job α → Job α
  | .done a => .done a
  | .raise fault => .raise fault
  | .emit event next => if fails event then .raise fault else .emit event (next.stopAt fails fault)
  | .look next => .look fun w => (next w).stopAt fails fault
  | .read path next => .read path fun entry => (next entry).stopAt fails fault
  | .pause next => .pause (next.stopAt fails fault)

/-- The events of a job slice by slice: the first slice and those after a pause.
The fault is what ended it, if one did. -/
structure Slices where
  first : List Event
  later : List (List Event)
  fault : Option Fault

/-- The slices of a job while the workspace stays as it is. -/
def slices (disk : Disk) (w : Workspace) : Job α → Slices
  | .done _ => ⟨[], [], none⟩
  | .raise fault => ⟨[], [], some fault⟩
  | .emit event next =>
    let s := next.slices disk w
    { s with first := event :: s.first }
  | .look next => (next w).slices disk w
  | .read path next => (next (disk path)).slices disk w
  | .pause next =>
    let s := next.slices disk w
    { s with first := [], later := s.first :: s.later }

/-- The slices as a list. -/
def Slices.all (s : Slices) : List (List Event) := s.first :: s.later

/-- The round in which a fault ends a job, counted from zero, and the fault. -/
def Slices.failure? (s : Slices) : Option (Nat × Fault) := s.fault.map (s.later.length, ·)

/-- Some rounds of jobs: in each round every job that is not finished runs one
slice, in the order in which the jobs were started. -/
def interleave (rounds : Nat) (jobs : List (List (List Event))) : List Event :=
  (List.range rounds).flatMap fun k => jobs.flatMap fun t => t.getD k []

/-- The rounds after which all jobs are finished. -/
def mostRounds (jobs : List (List (List Event))) : Nat := (jobs.map List.length).foldr max 0

/-- The earlier of two failures; of two in one round, the first. -/
def earlier : Option (Nat × Fault) → Option (Nat × Fault) → Option (Nat × Fault)
  | some f, some g => if f.1 ≤ g.1 then some f else some g
  | f, g => f.or g

/-- The first failure of jobs. -/
def firstFailure (runs : List Slices) : Option (Nat × Fault) :=
  runs.foldr (fun s rest => earlier s.failure? rest) none

/-- The events of jobs that run together while the workspace stays as it is, and
the first fault that ended one of them. The jobs are cut off after the rounds that
`limit` gives for the round of this fault, if it gives any. -/
def together (disk : Disk) (w : Workspace) (limit : Option Nat → Option Nat)
    (jobs : List (Job α)) : List Event × Option Fault :=
  let runs := jobs.map (slices disk w)
  let failure := firstFailure runs
  let slices := runs.map Slices.all
  (interleave ((limit (failure.map Prod.fst)).getD (mostRounds slices)) slices,
    failure.map Prod.snd)

end Job

end RenameServer
