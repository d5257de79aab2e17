import RenameServer.Proofs.Notices

/-!
A shutdown is a gate that closes once. A request that comes behind a shutdown is
refused by a job that does nothing else, unless it initializes or shuts down itself.
A request that comes before every shutdown has the job that it would have without
one, even if the shutdown is served while it waits. This does not depend on how the
messages are delivered, since the jobs are those of the requests in their order.
-/
namespace RenameServer

open Utf8 (Bytes)
open Event Job

namespace Server

/-- The reply to a request that comes too late. -/
def refusal (id : Json) : Json :=
  Message.error id (.int (-32600)) (.str "Server is shutting down")

theorem answer_of_down (server : Server) (id params : Json) {method : Json}
    (hinit : method ≠ .str "initialize") (hshut : method ≠ .str "shutdown") :
    server.answer true id method params = server.refuseRequest id := by
  unfold answer
  split
  · exact absurd rfl hinit
  · exact absurd rfl hshut
  · rfl

theorem shutsDown_iff {down : Bool} {method : Json} :
    shutsDown down method = true ↔ down = true ∨ method = .str "shutdown" := by
  rw [shutsDown, Bool.or_eq_true]
  refine or_congr Iff.rfl ?_
  cases method <;> simp [Json.same, Json.asInt?]

end Server

namespace Session

/-! ### The flag -/

section

variable {server : Server} {disk : Disk}

theorem down_jobs_of_down (requests : List Request) : (jobs server true requests).2 = true := by
  induction requests with
  | nil => rfl
  | cons q requests ih => exact ih

/-- A piece of input leaves the flag up. -/
theorem shuttingDown_feed {session : Session} (h : session.shuttingDown = true) (bytes : Bytes)
    (closed : Bool) : (feed server disk session bytes closed).1.shuttingDown = true := by
  obtain ⟨w, down, buffer, status⟩ := session
  obtain rfl : down = true := h
  refine (congrArg Session.shuttingDown (settle_eq _ _)).trans ?_
  cases status with
  | running => exact down_jobs_of_down _
  | ended => rfl
  | failed fault => rfl

theorem shuttingDown_converse {session : Session} (h : session.shuttingDown = true)
    (input : List (Bytes × Bool)) :
    (Program.converse server disk session input).1.shuttingDown = true := by
  induction input generalizing session with
  | nil => exact h
  | cons piece input ih => exact ih (shuttingDown_feed h piece.1 piece.2)

/-- Each request finds the flag up if it was up before, or if a shutdown came before it. -/
theorem shuttingDown_arrivals (w : Workspace) (down : Bool) (bodies : List Bytes) :
    let t := absorb server w down bodies
    (t.shuttingDown = true ↔
        down = true ∨ ∃ q ∈ t.arrivals.map Arrival.request, q.method = .str "shutdown") ∧
      ∀ i a, t.arrivals[i]? = some a → (a.shuttingDown = true ↔
        down = true ∨
          ∃ q ∈ (t.arrivals.map Arrival.request).take i, q.method = .str "shutdown") := by
  induction bodies generalizing w down with
  | nil => simp [absorb]
  | cons body bodies ih =>
    generalize hr : handle server w body = r
    by_cases hrun : r.status = .running
    · obtain ⟨ihdown, iharrivals⟩ := ih r.workspace (downAfter down r.request)
      rw [absorb_running hr hrun]
      dsimp only at ihdown iharrivals ⊢
      cases hrequest : r.request with
      | none =>
        rw [hrequest] at ihdown iharrivals
        exact ⟨ihdown, iharrivals⟩
      | some q =>
        rw [hrequest] at ihdown iharrivals
        simp only [downAfter, Option.elim_some, Server.shutsDown_iff] at ihdown iharrivals
        refine ⟨?_, fun i a ha => ?_⟩
        · simp only [Option.toList_some, List.map_cons, List.map_nil, List.singleton_append,
            List.exists_mem_cons_iff, downAfter, Option.elim_some, ← or_assoc]
          exact ihdown
        · cases i with
          | zero =>
            obtain rfl := Option.some.inj ha
            simp
          | succ i =>
            simp only [Option.toList_some, List.map_cons, List.map_nil, List.singleton_append,
              List.take_succ_cons, List.exists_mem_cons_iff, ← or_assoc]
            exact iharrivals i a ha
    · rw [absorb_stopped hr hrun]
      simp

end

/-! ### The jobs -/

/-- What becomes of a request, given the requests before it. -/
structure Gated (server : Server) (disk : Disk) (earlier : List Request) (a : Arrival) :
    Prop where
  refused : (∃ r ∈ earlier, r.method = .str "shutdown") →
    a.request.method ≠ .str "initialize" → a.request.method ≠ .str "shutdown" →
      a.job server = server.refuseRequest a.request.id ∧
      (Server.Sendable server.host (Server.refusal a.request.id) →
        a.reply? server disk = some (a.request.id, Server.refusal a.request.id)) ∧
      (¬ Server.Sendable server.host (Server.refusal a.request.id) →
        a.reply? server disk = none)
  dispatched : (∀ r ∈ earlier, r.method ≠ .str "shutdown") →
    a.job server = server.answer false a.request.id a.request.method a.request.params

/-- To refuse a request is to send one reply, if it can be sent, and nothing else. -/
theorem Arrival.reply?_of_refused {server : Server} (hserver : server.Replying) {a : Arrival}
    (h : a.job server = server.refuseRequest a.request.id) (disk : Disk) :
    (Server.Sendable server.host (Server.refusal a.request.id) →
        a.reply? server disk = some (a.request.id, Server.refusal a.request.id)) ∧
      (¬ Server.Sendable server.host (Server.refusal a.request.id) →
        a.reply? server disk = none) := by
  have hsend : a.job server = Server.send server.host true (Server.refusal a.request.id) := by
    rw [h, Server.refuseRequest, hserver.tell_eq]
    rfl
  constructor
  · intro hsendable
    have hreplies := @Server.replies_send server.host _ a.request.id disk a.workspace rfl (.inl rfl)
      hsendable 0
    rw [Arrival.reply?, hsend]
    exact congrArg List.head? hreplies
  · intro hnot
    rcases (a.reply?_cases hserver disk).2 with ⟨-, hok⟩ | ⟨hnone, -⟩
    · rw [hsend] at hok
      exact absurd ((Server.outcome_send_eq_ok_iff (.inl rfl)).mp hok) hnot
    · exact hnone

/-- A request is gated by the flag that it finds. -/
theorem gated_of_flag {server : Server} (hserver : server.Replying)
    (hwritable : ∀ e, server.fails e = false) {disk : Disk} {earlier : List Request} {a : Arrival}
    (hflag : a.shuttingDown = true ↔ ∃ q ∈ earlier, q.method = .str "shutdown") :
    Gated server disk earlier a := by
  have hjob : a.job server = server.answer a.shuttingDown a.request.id a.request.method
      a.request.params := stopAt_of_writable hwritable _ _
  refine ⟨fun hshut hinitialize hshutdown => ?_, fun hnone => ?_⟩
  · rw [hflag.mpr hshut, server.answer_of_down _ _ hinitialize hshutdown] at hjob
    exact ⟨hjob, Arrival.reply?_of_refused hserver hjob disk⟩
  · have hup : a.shuttingDown = false := by
      rw [← Bool.not_eq_true, hflag]
      rintro ⟨r, hr, hshut⟩
      exact hnone r hr hshut
    rw [hjob, hup]

theorem exists_of_getElem? {α β : Type} {R : α → β → Prop} {xs : List α} {ys : List β}
    (h : List.Forall₂ R xs ys) {i : Nat} {y : β} (hy : ys[i]? = some y) :
    ∃ x, xs[i]? = some x ∧ R x y := by
  induction h generalizing i with
  | nil => cases hy
  | @cons x y' xs ys hxy _ ih =>
    cases i with
    | zero =>
      obtain rfl := Option.some.inj hy
      exact ⟨x, rfl, hxy⟩
    | succ i => exact ih hy

/-- Frames with any bodies, in any pieces. The jobs that are started are those of the requests
before the first body that ends the session, in their order. Behind a shutdown a request is
refused, unless it is to initialize or to shut down, and it is told so if that can be sent;
before every shutdown it is dispatched as if there were none. All replies are sent if the
session does not fail, and a smooth one does not fail and replies to all requests. The flag
is up at the end if a shutdown was requested, and no input ever takes it down. If the bodies
are messages within the limits, whose methods are texts, then the requests are those before
the first exit. -/
theorem shutdown_gates {places : Preset.Places} {catalogue : Preset.Catalogue} {preset : String}
    {every : Int} {level : Log.Level} {length : Int} {host : Host} {server : Server}
    {announced : List Event}
    (hserver : Program.assemble places catalogue preset every true
      (Program.failing ⟨level, some length⟩) host = .ok (server, announced))
    (disk : Disk) {frames bodies : List Bytes} (hframes : List.Forall₂ Frame.Carries frames bodies)
    {pieces : List Bytes} {last : Bytes} (hpieces : pieces.flatten ++ last = frames.flatten)
    (closed : Bool) :
    let requests := (heard host bodies).filterMap (bodyRequest? host)
    let input := pieces.map (·, false) ++ [(last, closed)]
    let outcome := Program.converse server disk .initial input
    (∃ served : List Arrival,
        served.map Arrival.request = requests ∧
        started server disk .initial input = served.map (Arrival.job server) ∧
        (replies outcome.2).Subperm (served.filterMap (Arrival.reply? server disk)) ∧
        (¬ outcome.1.status.Failed →
          (replies outcome.2).Perm (served.filterMap (Arrival.reply? server disk))) ∧
        (∀ i a, served[i]? = some a → Gated server disk (requests.take i) a) ∧
        ∀ depth, Smooth server disk depth bodies → ¬ outcome.1.status.Failed ∧
          ∀ a ∈ served, ∃ message, a.reply? server disk = some (a.request.id, message)) ∧
      (outcome.1.shuttingDown = true ↔ ∃ r ∈ requests, r.method = .str "shutdown") ∧
      (∀ (session : Session) (more : List (Bytes × Bool)), session.shuttingDown = true →
        (Program.converse server disk session more).1.shuttingDown = true) ∧
      ∀ messages, Spoken host bodies messages →
        (∀ m ∈ messages, Addressed m ∧ m.Within host.noting) →
        requests = (messages.takeWhile fun m => !isExit m).filterMap request? := by
  intro requests input outcome
  obtain ⟨hreplying, hfails, rfl, -⟩ := Server.replying_of_assemble hserver
  have hwritable : ∀ e, server.fails e = false := by
    rw [hfails]
    exact Server.failing_of_length level length
  obtain ⟨served, hconcluded, hreached, -⟩ :=
    exists_concluded hwritable hreplying disk hframes hpieces closed
  obtain ⟨hdown, hflags⟩ := @shuttingDown_arrivals server .empty false bodies
  have hrequests : (absorb server .empty false bodies).arrivals.map Arrival.request = requests :=
    (absorb_spec hwritable .empty false bodies).2.2
  rw [hrequests] at hdown hflags
  simp only [Bool.false_eq_true, false_or] at hdown hflags
  refine ⟨⟨served, hconcluded.requests.trans hrequests, ?_, hconcluded.replies,
    hconcluded.complete, fun i a ha => ?_, fun depth hsmooth => ?_⟩, ?_,
    fun session more h => shuttingDown_converse h more, fun messages hspoken haddressed => ?_⟩
  · exact hconcluded.started.trans (hconcluded.map_eq fun _ _ => rfl).symm
  · obtain ⟨b, hb, hmoved⟩ := exists_of_getElem? hconcluded.arrived ha
    apply gated_of_flag hreplying hwritable
    rw [hmoved]
    exact hflags i b hb
  · obtain ⟨hanswered, -, hgood⟩ := hsmooth.concluded hreplying hconcluded hreached
    exact ⟨hgood, hanswered⟩
  · rw [← hdown, ← hconcluded.shuttingDown]
  · rw [← (takeWhile_of_addressed haddressed).1]
    exact hspoken.heard_filterMap request?

/-- All at once: a request before the shutdown is answered as ever, one behind it is
refused, and one behind the exit is not read. -/
theorem shutdown_gates_buffered :
    let messages := [calling (.int 1) "x", calling (.int 2) "shutdown", calling (.int 3) "x",
      calling .null "exit", calling (.int 4) "x"]
    let bodies := messages.map bodyOf
    let frames := bodies.map Frame.wrap
    let server := defaultServer (Program.failing ⟨.info, some 4000⟩)
    let outcome := Program.converse server (fun _ => .absent) .initial [(frames.flatten, false)]
    List.Forall₂ Frame.Carries frames bodies ∧ Smooth server (fun _ => .absent) 3 bodies ∧
      outcome.1.shuttingDown = true ∧
      (.int 1, Message.error (.int 1) (.int (-32601)) (.str "Unhandled method x")) ∈
        replies outcome.2 ∧
      (.int 3, Server.refusal (.int 3)) ∈ replies outcome.2 := by
  intro messages bodies frames server outcome
  obtain ⟨announced, hserver⟩ := assemble_default (Server.failing_of_length .info 4000)
  have hcalls : ∀ m ∈ messages, ∃ id name, m = calling id name ∧ id.Plain ∧ id.Within 0 ∧
      name ∉ documentMethods := by
    simp only [messages, List.forall_mem_cons]
    exact ⟨⟨_, _, rfl, .int 1, .int (by decide), by decide⟩,
      ⟨_, _, rfl, .int 2, .int (by decide), by decide⟩,
      ⟨_, _, rfl, .int 3, .int (by decide), by decide⟩, ⟨_, _, rfl, .null, .null, by decide⟩,
      ⟨_, _, rfl, .int 4, .int (by decide), by decide⟩, List.forall_mem_nil _⟩
  have hframes : List.Forall₂ Frame.Carries frames bodies := carries_bodies (by decide +kernel)
  have hsmooth := smooth_calls hcalls (Server.failing_of_length .info 4000)
  have hspoken : Spoken .usual bodies messages := spoken_calls hcalls
  have hrequests : (heard .usual bodies).filterMap (bodyRequest? .usual) =
      [⟨.int 1, .str "x", .obj []⟩, ⟨.int 2, .str "shutdown", .obj []⟩,
        ⟨.int 3, .str "x", .obj []⟩] := hspoken.heard_filterMap request?
  have hpieces : [].flatten ++ frames.flatten = frames.flatten := List.nil_append _
  obtain ⟨⟨served, hserved, -, -, hcomplete, hgated, hanswered⟩, hdown, -⟩ :=
    shutdown_gates hserver (fun _ => .absent) hframes hpieces false
  rw [hrequests] at hserved hgated hdown
  obtain ⟨hgood, hanswered⟩ := hanswered 3 hsmooth
  obtain ⟨a, b, c, rfl⟩ : ∃ a b c, served = [a, b, c] :=
    List.length_eq_three.mp (by rw [← List.length_map, hserved]; rfl)
  simp only [List.map_cons, List.map_nil, List.cons.injEq, and_true] at hserved
  obtain ⟨hfirst, -, hthird⟩ := hserved
  have hin : ∀ s ∈ [a, b, c], ∀ reply, s.reply? server (fun _ => .absent) = some reply →
      reply ∈ replies outcome.2 := fun s hs reply hreply =>
    (hcomplete hgood).mem_iff.mpr (List.mem_filterMap.mpr ⟨s, hs, hreply⟩)
  refine ⟨hframes, hsmooth, hdown.mpr ⟨_, List.mem_cons_of_mem _ List.mem_cons_self, rfl⟩, ?_, ?_⟩
  · have hjob := (hgated 0 a rfl).dispatched (List.forall_mem_nil _)
    rw [hfirst] at hjob
    refine hin a List.mem_cons_self _ ?_
    rw [Arrival.reply?, hjob]
    rfl
  · have hrefused := (hgated 2 c rfl).refused ⟨_, List.mem_cons_of_mem _ List.mem_cons_self, rfl⟩
    rw [hthird] at hrefused
    refine hin c (List.mem_cons_of_mem _ (List.mem_cons_of_mem _ List.mem_cons_self)) _ ?_
    refine (hrefused (by decide) (by decide)).2.1 ?_
    exact Server.sendable_of_tame
      (Server.tame_error (n := 0) (Json.tame_int_of_lt (by decide)) (by decide) _)
      (by decide) (by decide)

/-- The number of 4301 digits comes behind a shutdown. The session fails, and the request is
not refused but gets no reply at all. -/
theorem shutdown_gates_beyond :
    let messages := [calling (.int 1) "shutdown", callingBeyond]
    let bodies := messages.map bodyOf
    let frames := bodies.map Frame.wrap
    let outcome := Program.converse (defaultServer fun _ => false) (fun _ => .absent) .initial
      (frames.map (·, false) ++ [([], true)])
    (∀ m ∈ messages, m.Plain ∧ Addressed m ∧ isExit m = false) ∧
      (messages.filterMap request?).map (fun q => (q.id, q.method)) =
        [(.int 1, .str "shutdown"), (.int 2, .str "x")] ∧
      List.Forall₂ Frame.Carries frames bodies ∧
      outcome.1.status.Failed ∧ ∀ reply ∈ replies outcome.2, reply.1 ≠ .int 2 := by
  intro messages bodies frames outcome
  obtain ⟨announced, hserver⟩ := @assemble_default (fun _ => false) fun _ => rfl
  obtain ⟨hreplying, -⟩ := Server.replying_of_assemble hserver
  obtain ⟨fault, hfault⟩ := @bodyEnding?_of_readAll .usual callingBeyond readAll_callingBeyond
  have hshutdown := parseBody_calling (.int 1) (.int (by decide)) "shutdown"
  have hnone : bodyEnding? .usual (bodyOf (calling (.int 1) "shutdown")) = none := by
    rw [bodyEnding?, hshutdown]
    rfl
  have hframes : List.Forall₂ Frame.Carries frames bodies :=
    .cons (carries_bodyOf (by decide +kernel)) (.cons carries_callingBeyond .nil)
  have hpair : ∀ a b s, bodyEnding? .usual a = none → bodyEnding? .usual b = some s →
      [a, b].findSome? (bodyEnding? .usual) = some s := by
    intro a b s ha hb
    simp only [List.findSome?_cons, ha, hb]
  have hending : bodies.findSome? (bodyEnding? .usual) = some (.failed fault) :=
    hpair _ _ _ hnone hfault
  obtain ⟨hstatus, hreplies⟩ := converse_of_failing hreplying (fun _ => rfl) (fun _ => .absent)
    hframes (List.append_nil frames.flatten) true hending
  refine ⟨?_, rfl, hframes, ⟨fault, hstatus⟩, fun reply hreply => ?_⟩
  · simp only [messages, List.forall_mem_cons]
    exact ⟨⟨by simp [calling], addressed_calling .., rfl⟩,
      ⟨by simp [callingBeyond], ⟨⟨_, rfl⟩, .inr (Json.isText_str "x")⟩, rfl⟩, List.forall_mem_nil _⟩
  · have hmem : reply.1 ∈ ((heard .usual bodies).filterMap (bodyRequest? .usual)).map Request.id :=
      hreplies reply hreply
    have hheard : heard .usual bodies = [bodyOf (calling (.int 1) "shutdown")] :=
      (heard_cons_of_none hnone _).trans (congrArg _ (heard_cons_of_some hfault _))
    have hrequests : (heard .usual bodies).filterMap (bodyRequest? .usual) =
        [⟨.int 1, .str "shutdown", .obj []⟩] := by
      rw [hheard, List.filterMap_cons, bodyRequest?, hshutdown]
      rfl
    rw [hrequests] at hmem
    rw [List.mem_singleton.mp hmem]
    decide

end Session

end RenameServer
