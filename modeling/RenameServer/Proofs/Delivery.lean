import RenameServer.Proofs.Intake

/-!
Input in pieces. The frames that a piece completes are taken in, and then the
requests among them run together; what the piece has of the next frame stays in
the buffer. So a conversation is a sequence of stages, and a stage depends only on
the bodies that come together.
-/
namespace RenameServer.Session

open Utf8 (Bytes)
open Event Job

/-! ### Stages -/

/-- The status of a session that has taken in all there is. -/
def atEnd (server : Server) (closed : Bool) : Status → Status
  | .running => if closed then (endOfInput server).2 else .running
  | status => status

/-- The status once the requests have run, given the first fault among them. -/
def settled (status : Status) (fault : Option Fault) : Status :=
  match status, fault with
  | .ended, some fault => .failed fault
  | status, _ => status

theorem atEnd_of_ne_running {status : Status} (h : status ≠ .running) (server : Server)
    (closed : Bool) : atEnd server closed status = status := by
  cases status with
  | running => exact absurd rfl h
  | ended => rfl
  | failed fault => rfl

theorem settle_eq (session : Session) (fault : Option Fault) :
    session.settle fault = { session with status := settled session.status fault } := by
  obtain ⟨w, down, buffer, status⟩ := session
  cases fault <;> cases status <;> rfl

theorem settled_running (fault : Option Fault) : settled .running fault = .running := by
  cases fault <;> rfl

theorem settled_ne_running {status : Status} (h : status ≠ .running) (fault : Option Fault) :
    settled status fault ≠ .running := by
  cases status with
  | running => exact absurd rfl h
  | ended => cases fault <;> nofun
  | failed other => cases fault <;> nofun

/-- What was taken in together, and the status of the session by then. -/
structure Stage where
  taken : Absorbed
  status : Status

namespace Stage

variable (server : Server) (disk : Disk) (s : Stage)

def jobs : List (Job Unit) := s.taken.arrivals.map (Arrival.job server)

/-- What the requests of a stage do, and the first fault among them. -/
def run : List Event × Option Fault :=
  together disk s.taken.workspace (patience server.host s.status) (s.jobs server)

end Stage

/-- The stages of a session that takes in bodies group by group, the input being closed
behind a group or not. -/
def stages (server : Server) (w : Workspace) (down : Bool) :
    List (List Bytes × Bool) → List Stage
  | [] => []
  | (group, closed) :: rest =>
    let t := absorb server w down group
    let status := atEnd server closed t.status
    ⟨t, status⟩ ::
      match status with
      | .running => stages server t.workspace t.shuttingDown rest
      | _ => []

section

variable {server : Server} {w : Workspace} {down closed : Bool} {group : List Bytes} {t : Absorbed}

theorem stages_running (ht : absorb server w down group = t)
    (h : atEnd server closed t.status = .running) (rest : List (List Bytes × Bool)) :
    stages server w down ((group, closed) :: rest) =
      ⟨t, .running⟩ :: stages server t.workspace t.shuttingDown rest := by
  simp only [stages, ht, h]

theorem stages_stopped (ht : absorb server w down group = t)
    (h : atEnd server closed t.status ≠ .running) (rest : List (List Bytes × Bool)) :
    stages server w down ((group, closed) :: rest) = [⟨t, atEnd server closed t.status⟩] := by
  simp only [stages, ht]

/-- One group makes one stage. -/
theorem stages_singleton (ht : absorb server w down group = t) (closed : Bool) :
    stages server w down [(group, closed)] = [⟨t, atEnd server closed t.status⟩] := by
  by_cases hrun : atEnd server closed t.status = .running
  · rw [hrun]
    exact stages_running ht hrun []
  · exact stages_stopped ht hrun []

theorem status_of_atEnd (h : atEnd server closed t.status = .running) : t.status = .running := by
  by_contra hstop
  exact hstop ((atEnd_of_ne_running hstop server closed).symm.trans h)

end

/-! ### Pieces -/

/-- Input that arrives behind what is in the buffer completes the frames of one group of
bodies after the other. -/
inductive Arrives (depth : Nat) : Bytes → List (Bytes × Bool) → List (List Bytes × Bool) → Prop
  | nil (buffer : Bytes) : Arrives depth buffer [] []
  | cons {buffer bytes part : Bytes} {closed : Bool} {frames group : List Bytes}
    {input : List (Bytes × Bool)} {groups : List (List Bytes × Bool)}
    (hframes : List.Forall₂ Frame.Carries frames group)
    (hbytes : buffer ++ bytes = frames.flatten ++ part)
    (hpart : Frame.read depth closed part = if closed then .none [] else .waiting)
    (hrest : Arrives depth part input groups) :
    Arrives depth buffer ((bytes, closed) :: input) ((group, closed) :: groups)

section

variable {depth : Nat} {frames bodies : List Bytes}

/-- All frames at once. -/
theorem arrives_buffered (h : List.Forall₂ Frame.Carries frames bodies) (closed : Bool) :
    Arrives depth [] [(frames.flatten, closed)] [(bodies, closed)] :=
  .cons h (List.append_nil _).symm (Frame.read_nil depth closed) (.nil [])

/-- One frame at a time. -/
theorem arrives_apart (h : List.Forall₂ Frame.Carries frames bodies) (closed : Bool) :
    Arrives depth [] (frames.map (·, false) ++ [([], closed)])
      (bodies.map (fun b => ([b], false)) ++ [([], closed)]) := by
  induction h with
  | nil => exact .cons .nil rfl (Frame.read_nil depth closed) (.nil [])
  | @cons frame body frames bodies hframe _ ih =>
    have hbytes : [] ++ frame = [frame].flatten ++ [] := by simp
    exact .cons (.cons hframe .nil) hbytes (Frame.read_nil depth false) ih

theorem exists_of_forall₂_append {α β : Type} {R : α → β → Prop} {xs ys : List α} {zs : List β}
    (h : List.Forall₂ R (xs ++ ys) zs) :
    ∃ us vs, zs = us ++ vs ∧ List.Forall₂ R xs us ∧ List.Forall₂ R ys vs := by
  have htake := List.forall₂_take xs.length h
  have hdrop := List.forall₂_drop xs.length h
  rw [List.take_left] at htake
  rw [List.drop_left] at hdrop
  exact ⟨_, _, (List.take_append_drop xs.length zs).symm, htake, hdrop⟩

/-- Frames in any pieces. -/
theorem exists_arrives {buffer last : Bytes} {pieces : List Bytes}
    (h : List.Forall₂ Frame.Carries frames bodies)
    (hpieces : buffer ++ (pieces.flatten ++ last) = frames.flatten) (closed : Bool) :
    ∃ (groups : List (List Bytes)) (group : List Bytes), bodies = groups.flatten ++ group ∧
      (pieces = [] → groups = []) ∧
      Arrives depth buffer (pieces.map (·, false) ++ [(last, closed)])
        (groups.map (·, false) ++ [(group, closed)]) := by
  induction pieces generalizing buffer frames bodies with
  | nil =>
    have hbytes : buffer ++ last = frames.flatten ++ [] := by rw [List.append_nil]; exact hpieces
    exact ⟨[], bodies, rfl, fun _ => rfl, .cons h hbytes (Frame.read_nil depth closed) (.nil [])⟩
  | cons piece pieces ih =>
    rw [List.flatten_cons, List.append_assoc, ← List.append_assoc] at hpieces
    obtain ⟨⟨whole, part, later, rfl, hbytes, hmore, hshort⟩⟩ := Frame.exists_split hpieces
    obtain ⟨first, others, rfl, hwhole, hlater⟩ := exists_of_forall₂_append h
    obtain ⟨groups, group, rfl, -, harrives⟩ := ih hlater hmore
    refine ⟨first :: groups, group, (List.append_assoc ..).symm, nofun, ?_⟩
    exact .cons hwhole hbytes (Frame.read_part hlater hmore hshort) harrives

end

/-! ### Conversations -/

/-- The jobs that a conversation starts, in the order in which it starts them. -/
def started (server : Server) (disk : Disk) (session : Session) :
    List (Bytes × Bool) → List (Job Unit)
  | [] => []
  | (bytes, closed) :: rest =>
    (accept server session bytes closed).jobs ++
      started server disk (feed server disk session bytes closed).1 rest

section

variable {server : Server} {disk : Disk} {w : Workspace} {down closed : Bool}

theorem converse_cons (session : Session) (bytes : Bytes) (closed : Bool)
    (rest : List (Bytes × Bool)) :
    Program.converse server disk session ((bytes, closed) :: rest) =
      ((Program.converse server disk (session.feed server disk bytes closed).1 rest).1,
        (session.feed server disk bytes closed).2 ++
          (Program.converse server disk (session.feed server disk bytes closed).1 rest).2) := rfl

/-- After the end of a session its input leads to nothing. -/
theorem accept_of_stopped {session : Session} (h : session.status ≠ .running) (bytes : Bytes)
    (closed : Bool) : accept server session bytes closed = ⟨session, [], []⟩ := by
  simp only [accept]

theorem feed_of_stopped {session : Session} (h : session.status ≠ .running) (bytes : Bytes)
    (closed : Bool) : (feed server disk session bytes closed).1 = session ∧
      replies (feed server disk session bytes closed).2 = [] := by
  rw [feed, accept_of_stopped h]
  refine ⟨rfl, ?_⟩
  have hnone := @replies_together_subperm Unit disk session.workspace
    (patience server.host session.status) []
  exact List.subperm_nil.mp hnone

theorem converse_of_stopped {session : Session} (h : session.status ≠ .running)
    (input : List (Bytes × Bool)) :
    (Program.converse server disk session input).1 = session ∧
      replies (Program.converse server disk session input).2 = [] ∧
      started server disk session input = [] := by
  induction input with
  | nil => exact ⟨rfl, rfl, rfl⟩
  | cons piece rest ih =>
    obtain ⟨bytes, closed⟩ := piece
    obtain ⟨hsession, hreplies⟩ := @feed_of_stopped server disk session h bytes closed
    obtain ⟨ihsession, ihreplies, ihstarted⟩ := ih
    rw [converse_cons, started, hsession, replies_append, hreplies, ihreplies, ihstarted,
      accept_of_stopped h]
    exact ⟨ihsession, rfl, rfl⟩

variable {buffer bytes part : Bytes} {frames group : List Bytes} {t : Absorbed}

/-- What is read of a piece that completes the frames of a group. -/
theorem readAll_group (hframes : List.Forall₂ Frame.Carries frames group)
    (hbytes : buffer ++ bytes = frames.flatten ++ part)
    (hpart : Frame.read server.host.reading closed part = if closed then .none [] else .waiting)
    (ht : absorb server w down group = t) :
    ∃ events left, (∀ e ∈ events, e.Silent) ∧
      (atEnd server closed t.status = .running → left = part) ∧
      readAll server closed w down (buffer ++ bytes) =
        ⟨events, ⟨t.workspace, down, left, atEnd server closed t.status⟩,
          t.arrivals.map Arrival.request⟩ := by
  have hsilent := @silent_absorb server w down group
  rw [ht] at hsilent
  rw [hbytes]
  by_cases hrun : t.status = .running
  · rw [readAll_absorb_running hframes ht hrun, hrun]
    cases closed with
    | false =>
      refine ⟨t.events, part, hsilent, fun _ => rfl, ?_⟩
      rw [readAll_of_waiting hpart]
      simp only [List.append_nil]
      rfl
    | true =>
      have hend : ∀ e ∈ (endOfInput server).1, e.Silent := by
        rw [endOfInput]
        split
        · exact List.forall_mem_nil _
        · exact List.forall_mem_singleton.mpr (silent_log _)
      refine ⟨t.events ++ (endOfInput server).1, [], List.forall_mem_append.mpr ⟨hsilent, hend⟩,
        fun hends => ?_, ?_⟩
      · have hne : (endOfInput server).2 ≠ .running := by
          rw [endOfInput]
          split <;> nofun
        exact absurd hends hne
      · rw [readAll_of_none hpart]
        simp only [List.append_nil]
        rfl
  · obtain ⟨left, hread⟩ :=
      @readAll_absorb_stopped server w down closed frames group t hframes down ht hrun part
    refine ⟨t.events, left, hsilent, fun hends => ?_, ?_⟩
    · exact absurd (status_of_atEnd hends) hrun
    · rw [hread, atEnd_of_ne_running hrun]

/-- A piece that completes the frames of a group makes a stage. -/
theorem feed_group (hframes : List.Forall₂ Frame.Carries frames group)
    (hbytes : buffer ++ bytes = frames.flatten ++ part)
    (hpart : Frame.read server.host.reading closed part = if closed then .none [] else .waiting)
    (ht : absorb server w down group = t) {s : Stage}
    (hs : s = ⟨t, atEnd server closed t.status⟩) :
    (accept server ⟨w, down, buffer, .running⟩ bytes closed).jobs = s.jobs server ∧
      replies (feed server disk ⟨w, down, buffer, .running⟩ bytes closed).2 =
        replies (s.run server disk).1 ∧
      ∃ left, (s.status = .running → left = part) ∧
        (feed server disk ⟨w, down, buffer, .running⟩ bytes closed).1 =
          ⟨t.workspace, t.shuttingDown, left, settled s.status (s.run server disk).2⟩ := by
  subst hs
  obtain ⟨events, left, hsilent, hleft, hread⟩ := readAll_group hframes hbytes hpart ht
  have hjobs := @jobs_arrivals server w down group
  rw [ht] at hjobs
  have haccept : accept server ⟨w, down, buffer, .running⟩ bytes closed =
      ⟨⟨t.workspace, t.shuttingDown, left, atEnd server closed t.status⟩, events,
        t.arrivals.map (Arrival.job server)⟩ := by
    simp only [accept, hread, hjobs]
  rw [feed, haccept]
  refine ⟨rfl, ?_, left, hleft, settle_eq _ _⟩
  exact (replies_append _ _).trans (by rw [replies_eq_nil hsilent]; rfl)

/-- How a conversation goes, given its stages. -/
structure Staged (server : Server) (disk : Disk) (ss : List Stage) (w : Workspace) (down : Bool)
    (outcome : Session × List Event) (begun : List (Job Unit)) : Prop where
  replies : replies outcome.2 = ss.flatMap fun s => Event.replies (s.run server disk).1
  started : begun = ss.flatMap (Stage.jobs server)
  workspace : outcome.1.workspace = ss.getLast?.elim w fun s => s.taken.workspace
  shuttingDown : outcome.1.shuttingDown = ss.getLast?.elim down fun s => s.taken.shuttingDown
  status : outcome.1.status =
    ss.getLast?.elim .running fun s => settled s.status (s.run server disk).2

theorem elim_getLast?_cons {α : Type} (s : Stage) (ss : List Stage) (a : α) (f : Stage → α) :
    (s :: ss).getLast?.elim a f = ss.getLast?.elim (f s) f := by
  rw [List.getLast?_cons]
  cases ss.getLast? <;> rfl

/-- Input that completes groups of frames makes their stages, one after the other. -/
theorem staged_converse {input : List (Bytes × Bool)} {groups : List (List Bytes × Bool)}
    (h : Arrives server.host.reading buffer input groups) (disk : Disk) (w : Workspace)
    (down : Bool) :
    Staged server disk (stages server w down groups) w down
      (Program.converse server disk ⟨w, down, buffer, .running⟩ input)
      (started server disk ⟨w, down, buffer, .running⟩ input) := by
  induction h generalizing w down with
  | nil buffer => exact ⟨rfl, rfl, rfl, rfl, rfl⟩
  | @cons buffer bytes part closed frames group input groups hframes hbytes hpart _ ih =>
    generalize ht : absorb server w down group = t
    generalize hs : (⟨t, atEnd server closed t.status⟩ : Stage) = s
    obtain ⟨hjobs, hreplies, left, hleft, hsession⟩ :=
      @feed_group server disk w down closed buffer bytes part frames group t hframes hbytes hpart ht
        s hs.symm
    have hstatus : atEnd server closed t.status = s.status := by rw [← hs]
    have htaken : t = s.taken := by rw [← hs]
    rw [converse_cons, Session.started, hjobs, hsession]
    by_cases hrun : s.status = .running
    · obtain ⟨ihreplies, ihstarted, ihworkspace, ihdown, ihstatus⟩ := ih t.workspace t.shuttingDown
      obtain rfl := hleft hrun
      have hstages : stages server w down ((group, closed) :: groups) =
          s :: stages server t.workspace t.shuttingDown groups := by
        rw [stages_running ht (hstatus.trans hrun), ← hs, hstatus, hrun]
      rw [hrun, settled_running, hstages]
      refine ⟨?_, ?_, ?_, ?_, ?_⟩
      · rw [replies_append, hreplies, ihreplies]
        rfl
      · rw [ihstarted]
        rfl
      · rw [elim_getLast?_cons, ← htaken]
        exact ihworkspace
      · rw [elim_getLast?_cons, ← htaken]
        exact ihdown
      · rw [elim_getLast?_cons, hrun, settled_running]
        exact ihstatus
    · have hstages : stages server w down ((group, closed) :: groups) = [s] := by
        rw [stages_stopped ht (by rw [hstatus]; exact hrun), hs]
      obtain ⟨hstopped, hnone, hbegun⟩ := @converse_of_stopped server disk
        ⟨t.workspace, t.shuttingDown, left, settled s.status (s.run server disk).2⟩
        (settled_ne_running hrun _) input
      rw [hstages, hstopped, hbegun]
      refine ⟨?_, ?_, by rw [htaken]; rfl, by rw [htaken]; rfl, rfl⟩
      · rw [replies_append, hreplies, hnone]
        exact (List.append_nil _).trans (List.flatMap_singleton _ _).symm
      · exact (List.append_nil _).trans (List.flatMap_singleton _ _).symm

end

end RenameServer.Session
