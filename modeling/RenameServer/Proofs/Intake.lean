import RenameServer.Proofs.Messages
import RenameServer.Proofs.Pieces

/-!
Bodies that a session takes in one after the other. A body is read and handled,
and what it leads to does not depend on the frame around it or on what follows.
While no body ends the session, the bodies before a cut and those behind it lead
to what all of them lead to. If the log can be written, all of it can be told from
the bodies.
-/
namespace RenameServer.Session

open Utf8 (Bytes)
open Event Job

/-- A request, the workspace that it meets, and whether the server is shutting down. -/
structure Arrival where
  request : Request
  workspace : Workspace
  shuttingDown : Bool

namespace Arrival

def job (server : Server) (a : Arrival) : Job Unit :=
  (server.answer a.shuttingDown a.request.id a.request.method a.request.params).stopAt
    server.fails Server.unwritable

/-- The same request in another workspace. -/
def movedTo (w : Workspace) (a : Arrival) : Arrival := { a with workspace := w }

/-- The id and the reply that a request gets if it runs alone in its workspace. -/
def reply? (server : Server) (disk : Disk) (a : Arrival) : Option (Json × Json) :=
  (replies ((a.job server).run disk alone 0 a.workspace).events).head?

end Arrival

/-- Is the server shutting down after a message with or without a request? -/
def downAfter (down : Bool) (request : Option Request) : Bool :=
  request.elim down fun q => Server.shutsDown down q.method

/-- What one body leads to. -/
def handle (server : Server) (w : Workspace) (body : Bytes) : Received :=
  match Frame.parseBody server.host.reading body with
  | .error fault => ⟨[], w, none, .failed fault⟩
  | .ok message => receiveLogged server w message

/-- What bodies lead to together. -/
structure Absorbed where
  events : List Event
  workspace : Workspace
  shuttingDown : Bool
  arrivals : List Arrival
  status : Status

/-- Handle bodies until one ends the session. -/
def absorb (server : Server) (w : Workspace) (down : Bool) : List Bytes → Absorbed
  | [] => ⟨[], w, down, [], .running⟩
  | body :: rest =>
    let r := handle server w body
    match r.status with
    | .running =>
      let more := absorb server r.workspace (downAfter down r.request) rest
      ⟨r.events ++ more.events, more.workspace, more.shuttingDown,
        (r.request.toList.map fun q => ⟨q, r.workspace, down⟩) ++ more.arrivals, more.status⟩
    | status => ⟨r.events, r.workspace, down, [], status⟩

section Absorbing

variable {server : Server} {w : Workspace} {down : Bool} {body : Bytes} {r : Received}

theorem absorb_running (hr : handle server w body = r) (h : r.status = .running)
    (rest : List Bytes) :
    absorb server w down (body :: rest) =
      ⟨r.events ++ (absorb server r.workspace (downAfter down r.request) rest).events,
        (absorb server r.workspace (downAfter down r.request) rest).workspace,
        (absorb server r.workspace (downAfter down r.request) rest).shuttingDown,
        (r.request.toList.map fun q => ⟨q, r.workspace, down⟩) ++
          (absorb server r.workspace (downAfter down r.request) rest).arrivals,
        (absorb server r.workspace (downAfter down r.request) rest).status⟩ := by
  simp only [absorb, hr, h]

theorem absorb_stopped (hr : handle server w body = r) (h : r.status ≠ .running)
    (rest : List Bytes) :
    absorb server w down (body :: rest) = ⟨r.events, r.workspace, down, [], r.status⟩ := by
  simp only [absorb, hr]

variable {bodies : List Bytes} {t : Absorbed}

theorem absorb_append_running (ht : absorb server w down bodies = t) (h : t.status = .running)
    (rest : List Bytes) :
    absorb server w down (bodies ++ rest) =
      ⟨t.events ++ (absorb server t.workspace t.shuttingDown rest).events,
        (absorb server t.workspace t.shuttingDown rest).workspace,
        (absorb server t.workspace t.shuttingDown rest).shuttingDown,
        t.arrivals ++ (absorb server t.workspace t.shuttingDown rest).arrivals,
        (absorb server t.workspace t.shuttingDown rest).status⟩ := by
  induction bodies generalizing w down t with
  | nil =>
    subst ht
    rfl
  | cons body bodies ih =>
    generalize hr : handle server w body = r
    by_cases hrun : r.status = .running
    · rw [absorb_running hr hrun] at ht
      subst ht
      rw [List.cons_append, absorb_running hr hrun, ih rfl h]
      simp only [List.append_assoc]
    · rw [absorb_stopped hr hrun] at ht
      subst ht
      exact absurd h hrun

theorem absorb_append_stopped (ht : absorb server w down bodies = t) (h : t.status ≠ .running)
    (rest : List Bytes) : absorb server w down (bodies ++ rest) = t := by
  induction bodies generalizing w down t with
  | nil =>
    subst ht
    exact absurd rfl h
  | cons body bodies ih =>
    generalize hr : handle server w body = r
    by_cases hrun : r.status = .running
    · rw [absorb_running hr hrun] at ht
      subst ht
      rw [List.cons_append, absorb_running hr hrun, ih rfl h]
    · rw [absorb_stopped hr hrun] at ht
      rw [List.cons_append, absorb_stopped hr hrun, ht]

/-- Taking in bodies sends no replies. -/
theorem silent_handle (w : Workspace) (body : Bytes) :
    ∀ e ∈ (handle server w body).events, e.Silent := by
  unfold handle
  split
  · exact List.forall_mem_nil _
  · next message _ =>
    have hsilent := (told server.host.noting w message).silent
    unfold receiveLogged
    dsimp only
    split
    · exact fun e he => hsilent e ((List.takeWhile_sublist _).subset he)
    · exact hsilent

theorem silent_absorb (w : Workspace) (down : Bool) (bodies : List Bytes) :
    ∀ e ∈ (absorb server w down bodies).events, e.Silent := by
  induction bodies generalizing w down with
  | nil => exact List.forall_mem_nil _
  | cons body bodies ih =>
    have hbody := @silent_handle server w body
    generalize hr : handle server w body = r at hbody
    by_cases hrun : r.status = .running
    · rw [absorb_running hr hrun]
      exact List.forall_mem_append.mpr ⟨hbody, ih _ _⟩
    · rw [absorb_stopped hr hrun]
      exact hbody

theorem jobs_cons (w : Workspace) (down : Bool) (q : Request) (rest : List Request) :
    jobs server down (q :: rest) =
      ((⟨q, w, down⟩ : Arrival).job server :: (jobs server (Server.shutsDown down q.method) rest).1,
        (jobs server (Server.shutsDown down q.method) rest).2) := rfl

/-- The jobs of requests are those of their arrivals. -/
theorem jobs_arrivals (w : Workspace) (down : Bool) (bodies : List Bytes) :
    jobs server down ((absorb server w down bodies).arrivals.map Arrival.request) =
      ((absorb server w down bodies).arrivals.map (Arrival.job server),
        (absorb server w down bodies).shuttingDown) := by
  induction bodies generalizing w down with
  | nil => rfl
  | cons body bodies ih =>
    generalize hr : handle server w body = r
    by_cases hrun : r.status = .running
    · rw [absorb_running hr hrun]
      cases hrequest : r.request with
      | none => exact ih _ down
      | some q =>
        have hrest := ih r.workspace (Server.shutsDown down q.method)
        exact (jobs_cons r.workspace down q _).trans
          (congrArg (fun more : List (Job Unit) × Bool => (_ :: more.1, more.2)) hrest)
    · rw [absorb_stopped hr hrun]
      rfl

end Absorbing

/-! ### Reading -/

section Reading

variable {server : Server} {w : Workspace} {down closed : Bool} {buffer rest : Bytes}

theorem readAll_of_waiting (h : Frame.read server.host.reading closed buffer = .waiting) :
    readAll server closed w down buffer = ⟨[], ⟨w, down, buffer, .running⟩, []⟩ := by
  rw [readAll]
  split
  · rfl
  all_goals next heq => cases heq.symm.trans h

theorem readAll_of_none (h : Frame.read server.host.reading closed buffer = .none rest) :
    readAll server closed w down buffer =
      ⟨(endOfInput server).1, ⟨w, down, rest, (endOfInput server).2⟩, []⟩ := by
  rw [readAll]
  split
  · next heq => cases heq.symm.trans h
  · next heq =>
    obtain rfl := Frame.Outcome.none.inj (heq.symm.trans h)
    rfl
  all_goals next heq => cases heq.symm.trans h

variable {frame body : Bytes} {r : Received}

theorem readAll_handle_running (hframe : Frame.Carries frame body)
    (hr : handle server w body = r) (h : r.status = .running) (rest : Bytes) :
    readAll server closed w down (frame ++ rest) =
      ⟨r.events ++ (readAll server closed r.workspace down rest).events,
        (readAll server closed r.workspace down rest).session,
        r.request.toList ++ (readAll server closed r.workspace down rest).requests⟩ := by
  have hread := @Frame.Carries.read_append server.host.reading _ _ hframe closed rest
  unfold handle at hr
  unfold Frame.Outcome.ofBody at hread
  split at hr
  · subst hr
    cases h
  · next message hparse =>
    rw [hparse] at hread
    rw [readAll]
    split
    · next heq => cases heq.symm.trans hread
    · next heq => cases heq.symm.trans hread
    · next heq => cases heq.symm.trans hread
    · next heq =>
      obtain ⟨rfl, rfl⟩ := Frame.Outcome.message.inj (heq.symm.trans hread)
      simp only [hr, h]

theorem readAll_handle_stopped (hframe : Frame.Carries frame body)
    (hr : handle server w body = r) (h : r.status ≠ .running) (rest : Bytes) :
    readAll server closed w down (frame ++ rest) =
      ⟨r.events, ⟨r.workspace, down, rest, r.status⟩, []⟩ := by
  have hread := @Frame.Carries.read_append server.host.reading _ _ hframe closed rest
  unfold handle at hr
  unfold Frame.Outcome.ofBody at hread
  split at hr
  · next fault hparse =>
    subst hr
    rw [hparse] at hread
    rw [readAll]
    split
    · next heq => cases heq.symm.trans hread
    · next heq => cases heq.symm.trans hread
    · next heq =>
      obtain ⟨rfl, rfl⟩ := Frame.Outcome.fault.inj (heq.symm.trans hread)
      rfl
    · next heq => cases heq.symm.trans hread
  · next message hparse =>
    rw [hparse] at hread
    rw [readAll]
    split
    · next heq => cases heq.symm.trans hread
    · next heq => cases heq.symm.trans hread
    · next heq => cases heq.symm.trans hread
    · next heq =>
      obtain ⟨rfl, rfl⟩ := Frame.Outcome.message.inj (heq.symm.trans hread)
      simp only [hr]

variable {frames bodies : List Bytes} {t : Absorbed}

/-- Frames none of which ends the session are read, and then what follows them. -/
theorem readAll_absorb_running (hframes : List.Forall₂ Frame.Carries frames bodies) {flag : Bool}
    (ht : absorb server w flag bodies = t) (h : t.status = .running) (rest : Bytes) :
    readAll server closed w down (frames.flatten ++ rest) =
      ⟨t.events ++ (readAll server closed t.workspace down rest).events,
        (readAll server closed t.workspace down rest).session,
        t.arrivals.map Arrival.request ++
          (readAll server closed t.workspace down rest).requests⟩ := by
  induction hframes generalizing w flag t with
  | nil =>
    subst ht
    rfl
  | @cons frame body frames bodies hframe _ ih =>
    rw [List.flatten_cons, List.append_assoc]
    generalize hr : handle server w body = r
    by_cases hrun : r.status = .running
    · rw [absorb_running hr hrun] at ht
      subst ht
      rw [readAll_handle_running hframe hr hrun, ih rfl h]
      cases r.request <;> simp only [Option.toList, List.map_append, List.map_cons, List.map_nil,
        List.append_assoc]
    · rw [absorb_stopped hr hrun] at ht
      subst ht
      exact absurd h hrun

/-- Of frames one of which ends the session nothing more is read. -/
theorem readAll_absorb_stopped (hframes : List.Forall₂ Frame.Carries frames bodies) {flag : Bool}
    (ht : absorb server w flag bodies = t) (h : t.status ≠ .running) (rest : Bytes) :
    ∃ left, readAll server closed w down (frames.flatten ++ rest) =
      ⟨t.events, ⟨t.workspace, down, left, t.status⟩, t.arrivals.map Arrival.request⟩ := by
  induction hframes generalizing w flag t with
  | nil =>
    subst ht
    exact absurd rfl h
  | @cons frame body frames bodies hframe _ ih =>
    rw [List.flatten_cons, List.append_assoc]
    generalize hr : handle server w body = r
    by_cases hrun : r.status = .running
    · rw [absorb_running hr hrun] at ht
      subst ht
      obtain ⟨left, hleft⟩ := ih rfl h
      refine ⟨left, ?_⟩
      rw [readAll_handle_running hframe hr hrun, hleft]
      cases r.request <;> simp only [Option.toList, List.map_append, List.map_cons, List.map_nil]
    · rw [absorb_stopped hr hrun] at ht
      subst ht
      exact ⟨_, readAll_handle_stopped hframe hr hrun _⟩

end Reading

/-! ### What the bodies tell -/

/-- How a body ends the session, if it does. -/
def bodyEnding? (host : Host) (body : Bytes) : Option Status :=
  match Frame.parseBody host.reading body with
  | .error fault => some (.failed fault)
  | .ok message => ending? host.noting message

/-- The request that a body makes, if it makes one. -/
def bodyRequest? (host : Host) (body : Bytes) : Option Request :=
  (Frame.parseBody host.reading body).toOption.bind request?

/-- What a body does to the documents, if it does anything. -/
def bodyNotice? (host : Host) (body : Bytes) : Option Workspace.Operation :=
  (Frame.parseBody host.reading body).toOption.bind notice?

/-- The bodies before the first that ends the session. -/
def heard (host : Host) (bodies : List Bytes) : List Bytes :=
  bodies.takeWhile fun b => (bodyEnding? host b).isNone

/-- The workspace that the notices of bodies make of another. -/
def informed (host : Host) (w : Workspace) (bodies : List Bytes) : Workspace :=
  (bodies.filterMap (bodyNotice? host)).foldl Workspace.Operation.run w

theorem bodyEnding?_ne_running (host : Host) (body : Bytes) :
    bodyEnding? host body ≠ some .running := by
  unfold bodyEnding?
  split
  · simp
  · exact ending?_ne_running _ _

theorem heard_cons_of_none {host : Host} {body : Bytes} (h : bodyEnding? host body = none)
    (bodies : List Bytes) : heard host (body :: bodies) = body :: heard host bodies :=
  List.takeWhile_cons_of_pos (by rw [h]; rfl)

theorem heard_cons_of_some {host : Host} {body : Bytes} {status : Status}
    (h : bodyEnding? host body = some status) (bodies : List Bytes) :
    heard host (body :: bodies) = [] :=
  List.takeWhile_cons_of_neg (by rw [h]; simp)

theorem informed_cons (host : Host) (w : Workspace) (body : Bytes) (bodies : List Bytes) :
    informed host w (body :: bodies) =
      informed host ((bodyNotice? host body).elim w (·.run w)) bodies := by
  unfold informed
  rw [List.filterMap_cons]
  cases bodyNotice? host body <;> rfl

/-- Bodies that are read as messages. -/
def Spoken (host : Host) (bodies : List Bytes) (messages : List Json) : Prop :=
  List.Forall₂ (fun body message => Frame.parseBody host.reading body = .ok message) bodies messages

/-- What the bodies before the end of the session say is what the messages say. -/
theorem Spoken.heard_filterMap {β : Type} {host : Host} {bodies : List Bytes}
    {messages : List Json} (h : Spoken host bodies messages) (f : Json → Option β) :
    ((heard host bodies).filterMap fun b => (Frame.parseBody host.reading b).toOption.bind f) =
      (messages.takeWhile fun m => (ending? host.noting m).isNone).filterMap f := by
  induction h with
  | nil => rfl
  | @cons body message bodies messages hparse _ ih =>
    have hending : bodyEnding? host body = ending? host.noting message := by
      rw [bodyEnding?, hparse]
    cases hnone : ending? host.noting message with
    | none =>
      rw [heard_cons_of_none (hending.trans hnone),
        List.takeWhile_cons_of_pos (by rw [hnone]; rfl), List.filterMap_cons, List.filterMap_cons,
        hparse, ih]
      rfl
    | some status =>
      rw [heard_cons_of_some (hending.trans hnone),
        List.takeWhile_cons_of_neg (by rw [hnone]; simp)]
      rfl

theorem Spoken.filterMap {β : Type} {host : Host} {bodies : List Bytes} {messages : List Json}
    (h : Spoken host bodies messages) (f : Json → Option β) :
    (bodies.filterMap fun b => (Frame.parseBody host.reading b).toOption.bind f) =
      messages.filterMap f := by
  induction h with
  | nil => rfl
  | cons hparse _ ih =>
    rw [List.filterMap_cons, List.filterMap_cons, hparse, ih]
    rfl

theorem Spoken.findSome? {host : Host} {bodies : List Bytes} {messages : List Json}
    (h : Spoken host bodies messages) :
    bodies.findSome? (bodyEnding? host) = messages.findSome? (ending? host.noting) := by
  induction h with
  | nil => rfl
  | cons hparse _ ih => rw [List.findSome?_cons, List.findSome?_cons, bodyEnding?, hparse, ih]

/-- A body that does not end the session makes the request that it reads as, whatever can be
written to the log. -/
theorem request_of_running {server : Server} {w : Workspace} {body : Bytes}
    (h : (handle server w body).status = .running) :
    (handle server w body).request = bodyRequest? server.host body := by
  unfold handle at h ⊢
  unfold bodyRequest?
  split at h
  · cases h
  · next message hparse =>
    simp only [hparse]
    unfold receiveLogged at h ⊢
    dsimp only at h ⊢
    split at h
    · cases h
    · next hwritten =>
      obtain ⟨-, hstatus, hrequest, -⟩ := told server.host.noting w message
      rw [if_neg hwritten]
      apply hrequest
      rw [h] at hstatus
      cases hending : ending? server.host.noting message with
      | none => rfl
      | some status =>
        rw [hending] at hstatus
        exact absurd (hending.trans (congrArg some hstatus.symm)) (ending?_ne_running _ _)

theorem arrivals_sublist {server : Server} (w : Workspace) (down : Bool) (bodies : List Bytes) :
    ((absorb server w down bodies).arrivals.map Arrival.request).Sublist
      (bodies.filterMap (bodyRequest? server.host)) := by
  induction bodies generalizing w down with
  | nil => exact .slnil
  | cons body bodies ih =>
    generalize hr : handle server w body = r
    by_cases hrun : r.status = .running
    · have hrequest := @request_of_running server w body (by rw [hr]; exact hrun)
      rw [absorb_running hr hrun, List.filterMap_cons, ← hrequest, hr]
      cases r.request with
      | none => exact ih _ _
      | some q => exact (ih _ _).cons_cons q
    · rw [absorb_stopped hr hrun]
      exact List.nil_sublist _

theorem informed_of_no_notice {host : Host} {bodies : List Bytes}
    (h : ∀ b ∈ bodies, bodyNotice? host b = none) (w : Workspace) : informed host w bodies = w := by
  rw [informed, List.filterMap_eq_nil_iff.mpr h]
  rfl

section Writable

variable {server : Server} (hwritable : ∀ e, server.fails e = false)

include hwritable

theorem receiveLogged_of_writable (w : Workspace) (message : Json) :
    receiveLogged server w message = receive server.host.noting w message := by
  rw [receiveLogged, if_neg (by simp [hwritable])]

theorem handle_spec (w : Workspace) (body : Bytes) :
    (handle server w body).status = (bodyEnding? server.host body).getD .running ∧
      (bodyEnding? server.host body = none →
        (handle server w body).request = bodyRequest? server.host body ∧
        (handle server w body).workspace =
          (bodyNotice? server.host body).elim w (·.run w)) ∧
      (bodyEnding? server.host body ≠ none → (handle server w body).workspace = w) := by
  unfold handle bodyEnding? bodyRequest? bodyNotice?
  cases Frame.parseBody server.host.reading body with
  | error fault => exact ⟨rfl, nofun, fun _ => rfl⟩
  | ok message =>
    obtain ⟨-, hstatus, hrequest, hworkspace⟩ := told server.host.noting w message
    dsimp only
    rw [receiveLogged_of_writable hwritable]
    refine ⟨hstatus, fun hnone => ⟨hrequest hnone, ?_⟩, fun hsome => ?_⟩
    · rwa [if_pos hnone] at hworkspace
    · rwa [if_neg hsome] at hworkspace

/-- What bodies lead to: the first that ends the session gives the status, and those
before it make the workspace and the requests. -/
theorem absorb_spec (w : Workspace) (down : Bool) (bodies : List Bytes) :
    (absorb server w down bodies).status =
        (bodies.findSome? (bodyEnding? server.host)).getD .running ∧
      (absorb server w down bodies).workspace =
        informed server.host w (heard server.host bodies) ∧
      (absorb server w down bodies).arrivals.map Arrival.request =
        (heard server.host bodies).filterMap (bodyRequest? server.host) := by
  induction bodies generalizing w down with
  | nil => exact ⟨rfl, rfl, rfl⟩
  | cons body bodies ih =>
    obtain ⟨hstatus, hgoes, hstops⟩ := handle_spec hwritable w body
    generalize hr : handle server w body = r at hstatus hgoes hstops
    cases hending : bodyEnding? server.host body with
    | none =>
      obtain ⟨hrequest, hworkspace⟩ := hgoes hending
      rw [hending] at hstatus
      obtain ⟨ihstatus, ihworkspace, ihrequests⟩ := ih r.workspace (downAfter down r.request)
      rw [absorb_running hr hstatus, List.findSome?_cons, hending, heard_cons_of_none hending,
        informed_cons, List.filterMap_cons, ← hworkspace, ← hrequest]
      refine ⟨ihstatus, ihworkspace, ?_⟩
      dsimp only
      rw [List.map_append, ihrequests]
      cases r.request <;> rfl
    | some status =>
      rw [hending] at hstatus
      have hstopped : r.status ≠ .running := by
        intro hrun
        refine bodyEnding?_ne_running server.host body ?_
        rw [hending, ← hrun, hstatus]
        rfl
      rw [absorb_stopped hr hstopped, List.findSome?_cons, hending, heard_cons_of_some hending]
      exact ⟨hstatus, hstops (by rw [hending]; nofun), rfl⟩

/-- A request meets the workspace that the bodies before it have made. -/
theorem exists_of_mem_arrivals {w : Workspace} {down : Bool} {bodies : List Bytes} {a : Arrival}
    (h : a ∈ (absorb server w down bodies).arrivals) :
    ∃ before body after, heard server.host bodies = before ++ body :: after ∧
      bodyRequest? server.host body = some a.request ∧
      a.workspace = informed server.host w before := by
  induction bodies generalizing w down with
  | nil => cases h
  | cons body bodies ih =>
    obtain ⟨hstatus, hgoes, -⟩ := handle_spec hwritable w body
    generalize hr : handle server w body = r at hstatus hgoes
    cases hending : bodyEnding? server.host body with
    | none =>
      obtain ⟨hrequest, hworkspace⟩ := hgoes hending
      rw [hending] at hstatus
      rw [absorb_running hr hstatus] at h
      rw [heard_cons_of_none hending]
      rcases List.mem_append.mp h with h | h
      · obtain ⟨q, hq, rfl⟩ := List.mem_map.mp h
        have hsome : bodyRequest? server.host body = some q :=
          hrequest.symm.trans (Option.mem_toList.mp hq)
        have hnotice : bodyNotice? server.host body = none := by
          obtain ⟨message, hmessage, hq⟩ := Option.bind_eq_some_iff.mp hsome
          rw [bodyNotice?, hmessage]
          refine notice?_of_id fun hnull => ?_
          rw [request?, if_pos (.inr hnull)] at hq
          cases hq
        refine ⟨[], body, heard server.host bodies, rfl, hsome, ?_⟩
        rw [hnotice] at hworkspace
        exact hworkspace
      · obtain ⟨before, other, after, hheard, hother, hmet⟩ := ih h
        refine ⟨body :: before, other, after, by rw [hheard]; rfl, hother, ?_⟩
        rw [informed_cons, ← hworkspace]
        exact hmet
    | some status =>
      have hstopped : r.status ≠ .running := by
        intro hrun
        refine bodyEnding?_ne_running server.host body ?_
        rw [hending] at hstatus ⊢
        rw [← hrun, hstatus]
        rfl
      rw [absorb_stopped hr hstopped] at h
      cases h

end Writable

end RenameServer.Session
