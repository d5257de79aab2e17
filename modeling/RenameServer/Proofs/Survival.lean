import RenameServer.Proofs.Buffering

/-!
Which messages a session survives. The first body that is no message, or that ends
the session otherwise, gives its status, and nothing behind it is read. The
requests before it are answered as far as they can be; one that cannot makes the
session fail if the session waits for it at its end, and a session that fails cuts
off requests that have not come to their end.
-/
namespace RenameServer.Session

open Utf8 (Bytes)
open Event Job

/-- A request with an array for a method is given up, unless the server is shutting down. -/
theorem Arrival.reply?_of_array {server : Server} (hserver : server.Replying)
    (hwritable : ∀ e, server.fails e = false) {a : Arrival} {items : List Json}
    (hmethod : a.request.method = .arr items) (hup : a.shuttingDown = false) (disk : Disk) :
    a.reply? server disk = none := by
  have hraise : a.job server = .raise (.wrongKind .key .arr) := by
    rw [Arrival.job, stopAt_of_writable hwritable, hmethod, hup]
    rfl
  rcases (a.reply?_cases hserver disk).2 with ⟨-, hok⟩ | ⟨hnone, -⟩
  · rw [hraise] at hok
    cases hok
  · exact hnone

/-- Frames with any bodies, in any pieces. The first body that is no message, or that ends the
session otherwise, gives the status of the session. The requests before it meet documents
that bodies before it have made, and get no replies but those that they get alone; they get
all of these if the session does not fail. It fails at its end only if some request gets no
reply, and does so if all input comes at once. A request by name gets its reply, if the
renamer is tidy and what it asks for is within the limits of the machine; one with an array
for a method gets none before a shutdown. -/
theorem converse_bodies {places : Preset.Places} {catalogue : Preset.Catalogue} {preset : String}
    {every : Int} {level : Log.Level} {length : Int} {host : Host} {server : Server}
    {announced : List Event}
    (hserver : Program.assemble places catalogue preset every true
      (Program.failing ⟨level, some length⟩) host = .ok (server, announced))
    (disk : Disk) {frames bodies : List Bytes} (hframes : List.Forall₂ Frame.Carries frames bodies)
    {pieces : List Bytes} {last : Bytes} (hpieces : pieces.flatten ++ last = frames.flatten)
    (closed : Bool) :
    let stop := (bodies.findSome? (bodyEnding? host)).getD (if closed then .ended else .running)
    let outcome := Program.converse server disk .initial
      (pieces.map (·, false) ++ [(last, closed)])
    ∃ served : List Arrival,
      served.map Arrival.request = (heard host bodies).filterMap (bodyRequest? host) ∧
      (∀ a ∈ served, ∃ before, before <+: heard host bodies ∧
        a.workspace = informed host .empty before) ∧
      (replies outcome.2).Subperm (served.filterMap (Arrival.reply? server disk)) ∧
      (¬ outcome.1.status.Failed →
        (replies outcome.2).Perm (served.filterMap (Arrival.reply? server disk))) ∧
      (outcome.1.status = stop ∨ stop = .ended ∧ outcome.1.status.Failed ∧
        ∃ a ∈ served, a.reply? server disk = none) ∧
      (pieces = [] → stop = .ended → (∃ a ∈ served, a.reply? server disk = none) →
        outcome.1.status.Failed) ∧
      (∀ a ∈ served, (∃ items, a.request.method = .arr items) → a.shuttingDown = false →
        a.reply? server disk = none) ∧
      ∀ depth, server.service.renamer.Tidy → host.Allows depth → disk.Brief →
        ∀ a ∈ served, a.Answerable depth →
          ∃ message, a.reply? server disk = some (a.request.id, message) := by
  intro stop outcome
  obtain ⟨hreplying, hfails, rfl, -⟩ := Server.replying_of_assemble hserver
  have hwritable : ∀ e, server.fails e = false := by
    rw [hfails]
    exact Server.failing_of_length level length
  obtain ⟨served, hconcluded, hreached, honce⟩ :=
    exists_concluded hwritable hreplying disk hframes hpieces closed
  have hstop : atEnd server closed (absorb server .empty false bodies).status = stop :=
    atEnd_absorb hwritable .empty false closed bodies
  rw [hstop] at hconcluded honce
  refine ⟨served, ?_, hreached, hconcluded.replies, hconcluded.complete, hconcluded.status, honce,
    fun a _ hmethod hup => ?_, fun depth htidy hallows hbrief a _ hanswerable => ?_⟩
  · rw [hconcluded.requests, (absorb_spec hwritable .empty false bodies).2.2]
  · obtain ⟨items, hmethod⟩ := hmethod
    exact Arrival.reply?_of_array hreplying hwritable hmethod hup disk
  · exact hanswerable.exists_reply hreplying hwritable htidy hallows hbrief

theorem bodyEnding?_of_unreadable {host : Host} {body : Bytes}
    (h : (Frame.parseBody host.reading body).toOption = none) :
    ∃ fault, bodyEnding? host body = some (.failed fault) := by
  unfold bodyEnding?
  cases hparse : Frame.parseBody host.reading body with
  | error fault => exact ⟨fault, rfl⟩
  | ok message =>
    rw [hparse] at h
    cases h

/-- If the first body that ends the session makes it fail, the session has failed, and all its
replies are to requests before that body. -/
theorem converse_of_failing {server : Server} (hserver : server.Replying)
    (hwritable : ∀ e, server.fails e = false) (disk : Disk) {frames bodies : List Bytes}
    (hframes : List.Forall₂ Frame.Carries frames bodies) {pieces : List Bytes} {last : Bytes}
    (hpieces : pieces.flatten ++ last = frames.flatten) (closed : Bool) {fault : Fault}
    (h : bodies.findSome? (bodyEnding? server.host) = some (.failed fault)) :
    let outcome := Program.converse server disk .initial
      (pieces.map (·, false) ++ [(last, closed)])
    outcome.1.status = .failed fault ∧ ∀ reply ∈ replies outcome.2, reply.1 ∈
      ((heard server.host bodies).filterMap (bodyRequest? server.host)).map Request.id := by
  intro outcome
  obtain ⟨served, hconcluded, -, -⟩ :=
    exists_concluded hwritable hserver disk hframes hpieces closed
  constructor
  · have hstatus := hconcluded.status
    rw [atEnd_absorb hwritable, h] at hstatus
    rcases hstatus with hstatus | ⟨hended, -⟩
    · exact hstatus
    · cases hended
  · intro reply hreply
    obtain ⟨a, ha, hsome⟩ := List.mem_filterMap.mp (hconcluded.replies.subset hreply)
    rw [← (absorb_spec hwritable .empty false bodies).2.2, ← hconcluded.requests,
      Arrival.id_of_reply? hserver hsome]
    exact List.mem_map_of_mem (List.mem_map_of_mem ha)

/-- An unknown call and a shutdown are answered. A body that is null ends the session without
a fault, and the call behind it is not read. -/
theorem converse_bodies_null :
    let messages := [calling (.int 1) "x", calling (.int 2) "shutdown", .null, calling (.int 3) "x"]
    let bodies := messages.map bodyOf
    let frames := bodies.map Frame.wrap
    let server := defaultServer (Program.failing ⟨.info, some 4000⟩)
    let outcome := Program.converse server (fun _ => .absent) .initial [(frames.flatten, true)]
    List.Forall₂ Frame.Carries frames bodies ∧ outcome.1.status = .ended ∧
      ((replies outcome.2).map Prod.fst).Perm [.int 1, .int 2] := by
  intro messages bodies frames server outcome
  obtain ⟨announced, hserver⟩ := assemble_default (Server.failing_of_length .info 4000)
  have hframes : List.Forall₂ Frame.Carries frames bodies := carries_bodies (by decide +kernel)
  have hparse : ∀ m ∈ messages, Frame.parseBody Host.usual.reading (bodyOf m) = .ok m := by
    simp only [messages, List.forall_mem_cons]
    exact ⟨parseBody_calling (.int 1) (.int (by decide)) _,
      parseBody_calling (.int 2) (.int (by decide)) _, parseBody_bodyOf .null rfl,
      parseBody_calling (.int 3) (.int (by decide)) _, List.forall_mem_nil _⟩
  have hspoken : Spoken .usual bodies messages := spoken_bodyOf hparse
  have hheard : heard .usual bodies = (messages.take 2).map bodyOf := heard_bodyOf hparse
  have hrequests : (heard .usual bodies).filterMap (bodyRequest? .usual) =
      [⟨.int 1, .str "x", .obj []⟩, ⟨.int 2, .str "shutdown", .obj []⟩] :=
    hspoken.heard_filterMap request?
  have hending : bodies.findSome? (bodyEnding? .usual) = some .ended := by
    rw [hspoken.findSome?]
    rfl
  have hsmooth : Smooth server (fun _ => .absent) 3 ((messages.take 2).map bodyOf) := by
    refine smooth_calls ?_ (Server.failing_of_length .info 4000)
    simp only [messages, List.take_succ_cons, List.take_zero, List.forall_mem_cons]
    exact ⟨⟨_, _, rfl, .int 1, .int (by decide), by decide⟩,
      ⟨_, _, rfl, .int 2, .int (by decide), by decide⟩, List.forall_mem_nil _⟩
  have hpieces : [].flatten ++ frames.flatten = frames.flatten := rfl
  obtain ⟨served, hserved, hreached, -, hcomplete, hstatus, -, -, hreplies⟩ :=
    converse_bodies hserver (fun _ => .absent) hframes hpieces true
  rw [hheard] at hreached
  have hanswered : ∀ a ∈ served,
      ∃ message, a.reply? server (fun _ => .absent) = some (a.request.id, message) := by
    intro a ha
    obtain ⟨before, hbefore, hworkspace⟩ := hreached a ha
    have hmem : a.request ∈ (heard .usual bodies).filterMap (bodyRequest? .usual) := by
      rw [← hserved]
      exact List.mem_map_of_mem ha
    rw [hheard] at hmem
    obtain ⟨body, hbody, hrequest⟩ := List.mem_filterMap.mp hmem
    exact hreplies 3 hsmooth.tidy hsmooth.allows hsmooth.files a ha
      (Modest.answerable hsmooth.modest hsmooth.texts hbody hrequest hbefore hworkspace)
  rw [hending] at hstatus
  have hended : outcome.1.status = .ended := by
    rcases hstatus with hstatus | ⟨-, -, a, ha, hnone⟩
    · exact hstatus
    · obtain ⟨message, hsome⟩ := hanswered a ha
      cases hnone.symm.trans hsome
  have hgood : ¬ outcome.1.status.Failed := by
    rw [hended]
    rintro ⟨fault, hfault⟩
    cases hfault
  have hperm := (hcomplete hgood).map Prod.fst
  rw [ids_of_replied hanswered, hserved, hrequests] at hperm
  exact ⟨hframes, hended, hperm⟩

/-- One message that is no JSON ends the session with a fault, and the request
behind it gets no reply. -/
theorem converse_not_survived :
    let shutdown := calling (.int 1) "shutdown"
    let bodies := [Utf8.encode "x", bodyOf shutdown]
    let frames := bodies.map Frame.wrap
    let server := defaultServer (Program.failing ⟨.info, some 4000⟩)
    let outcome := Program.converse server (fun _ => .absent) .initial
      (frames.map (·, false) ++ [([], true)])
    List.Forall₂ Frame.Carries frames bodies ∧
      bodyRequest? .usual (bodyOf shutdown) = some ⟨.int 1, .str "shutdown", .obj []⟩ ∧
      outcome.1.status.Failed ∧ replies outcome.2 = [] := by
  intro shutdown bodies frames server outcome
  obtain ⟨announced, hserver⟩ := assemble_default (Server.failing_of_length .info 4000)
  obtain ⟨hreplying, -⟩ := Server.replying_of_assemble hserver
  have hframes : List.Forall₂ Frame.Carries frames bodies :=
    .cons (Frame.carries_wrap (by decide +kernel)) (.cons (carries_bodyOf (by decide +kernel)) .nil)
  have hparse := parseBody_calling (.int 1) (.int (by decide)) "shutdown"
  obtain ⟨fault, hfault⟩ := @bodyEnding?_of_unreadable .usual (Utf8.encode "x") (by decide +kernel)
  have hending : bodies.findSome? (bodyEnding? .usual) = some (.failed fault) := by
    rw [List.findSome?_cons, hfault]
  obtain ⟨hstatus, hreplies⟩ := converse_of_failing hreplying
    (Server.failing_of_length .info 4000) (fun _ => .absent) hframes
    (List.append_nil frames.flatten) true hending
  refine ⟨hframes, by rw [bodyRequest?, hparse]; rfl, ⟨fault, hstatus⟩, ?_⟩
  refine List.eq_nil_iff_forall_not_mem.mpr fun reply hreply => ?_
  have hnone : reply.1 ∈ ((heard .usual bodies).filterMap (bodyRequest? .usual)).map Request.id :=
    hreplies reply hreply
  rw [heard_cons_of_some hfault] at hnone
  cases hnone

end RenameServer.Session
