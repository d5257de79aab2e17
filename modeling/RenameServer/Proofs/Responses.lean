import RenameServer.Proofs.Survival

/-!
Every request is answered once. In a smooth session no message but an exit ends the
session, and no request is given up. Then for each id there are as many replies as
there are requests with that id before the exit, whatever the requests ask for and
however the input is cut into pieces. A message beyond the limits of the reader is
answered by nothing, and ends the session with a fault.
-/
namespace RenameServer.Session

open Utf8 (Bytes)
open Event Job

/-- Among addressed messages within the limits of the log, only an exit ends the session. -/
theorem takeWhile_of_addressed {host : Host} {messages : List Json}
    (h : ∀ m ∈ messages, Addressed m ∧ m.Within host.noting) :
    (messages.takeWhile fun m => (ending? host.noting m).isNone) =
        messages.takeWhile (fun m => !isExit m) ∧
      messages.findSome? (ending? host.noting) =
        if messages.any isExit then some .ended else none := by
  induction messages with
  | nil => exact ⟨rfl, rfl⟩
  | cons m messages ih =>
    obtain ⟨⟨haddressed, hwithin⟩, hrest⟩ := List.forall_mem_cons.mp h
    obtain ⟨ihheard, ihending⟩ := ih hrest
    have hending := ending?_of_within haddressed hwithin
    rw [List.findSome?_cons, List.any_cons, hending]
    cases hexit : isExit m with
    | true =>
      rw [hexit] at hending
      rw [List.takeWhile_cons_of_neg (by rw [hending]; simp),
        List.takeWhile_cons_of_neg (by simp [hexit])]
      exact ⟨rfl, rfl⟩
    | false =>
      rw [hexit] at hending
      rw [List.takeWhile_cons_of_pos (by rw [hending]; rfl),
        List.takeWhile_cons_of_pos (by simp [hexit]), ihheard]
      exact ⟨rfl, ihending⟩

/-- What modest bodies are read as. -/
theorem Spoken.addressed {host : Host} {bodies : List Bytes} {messages : List Json}
    (hspoken : Spoken host bodies messages) {depth : Nat} (hnoting : depth ≤ host.noting)
    (h : ∀ b ∈ bodies, Modest host depth b) :
    ∀ m ∈ messages, Addressed m ∧ m.Within host.noting := by
  induction hspoken with
  | nil => exact List.forall_mem_nil _
  | cons hparse _ ih =>
    obtain ⟨⟨held, hheld, haddressed, htame⟩, hrest⟩ := List.forall_mem_cons.mp h
    obtain rfl := Except.ok.inj (hheld.symm.trans hparse)
    exact List.forall_mem_cons.mpr ⟨⟨haddressed, htame.within.mono hnoting⟩, ih hrest⟩

/-- Messages of a smooth session, in any pieces: the session does not fail, and for each id
there are as many replies as requests before the first exit. So one request has one reply,
and other messages have none. -/
theorem replies_once {places : Preset.Places} {catalogue : Preset.Catalogue} {preset : String}
    {every : Int} {fails : Event → Bool} {host : Host} {server : Server} {announced : List Event}
    (hserver : Program.assemble places catalogue preset every true fails host =
      .ok (server, announced))
    (disk : Disk) {frames bodies : List Bytes} (hframes : List.Forall₂ Frame.Carries frames bodies)
    {messages : List Json} (hspoken : Spoken host bodies messages) {depth : Nat}
    (hsmooth : Smooth server disk depth bodies) {pieces : List Bytes} {last : Bytes}
    (hpieces : pieces.flatten ++ last = frames.flatten) (closed : Bool) :
    let outcome := Program.converse server disk .initial
      (pieces.map (·, false) ++ [(last, closed)])
    outcome.1.status = (if closed || messages.any isExit then .ended else .running) ∧
      ∀ id, ((replies outcome.2).map Prod.fst).count id =
        (messages.takeWhile fun m => !isExit m).countP fun m =>
          (request? m).any fun q => q.id = id := by
  intro outcome
  obtain ⟨hreplying, -, rfl, -⟩ := Server.replying_of_assemble hserver
  obtain ⟨hheard, hending⟩ := takeWhile_of_addressed
    (hspoken.addressed hsmooth.allows.noting hsmooth.modest)
  obtain ⟨served, hconcluded, hreached, -⟩ :=
    exists_concluded hsmooth.writable hreplying disk hframes hpieces closed
  obtain ⟨hanswered, hstatus, hgood⟩ := hsmooth.concluded hreplying hconcluded hreached
  constructor
  · rw [hstatus, hspoken.findSome?, hending]
    cases messages.any isExit <;> cases closed <;> rfl
  · intro id
    have hids := (hconcluded.complete hgood).map Prod.fst
    rw [ids_of_replied hanswered, hconcluded.requests,
      (absorb_spec hsmooth.writable .empty false bodies).2.2] at hids
    have hrequests : (heard server.host bodies).filterMap (bodyRequest? server.host) =
        (messages.takeWhile fun m => !isExit m).filterMap request? := by
      rw [← hheard]
      exact hspoken.heard_filterMap request?
    rw [hids.count_eq, hrequests, List.map_filterMap, List.count_filterMap]
    refine List.countP_congr fun message _ => ?_
    cases request? message <;> simp

/-- Two requests under one id, one that fails and one that is not known, a message that asks
for nothing, a request after the shutdown and one after the exit, cut in the middle of a
frame. -/
theorem replies_once_repeated :
    let messages := [calling (.int 1) "textDocument/rename", calling .null "x",
      calling (.int 1) "x", calling (.int 2) "shutdown", calling (.str "a") "x",
      calling .null "exit", calling (.int 3) "x"]
    let bodies := messages.map bodyOf
    let frames := bodies.map Frame.wrap
    let server := defaultServer fun _ => false
    let outcome := Program.converse server (fun _ => .absent) .initial
      [(frames.flatten.take 40, false), (frames.flatten.drop 40, false)]
    let ids := (replies outcome.2).map Prod.fst
    List.Forall₂ Frame.Carries frames bodies ∧ Spoken .usual bodies messages ∧
      Smooth server (fun _ => .absent) 3 bodies ∧ outcome.1.status = .ended ∧
      [.int 1, .int 2, .str "a", .int 3, .null].map (ids.count ·) = [2, 1, 1, 0, 0] := by
  intro messages bodies frames server outcome ids
  obtain ⟨announced, hserver⟩ := @assemble_default (fun _ => false) fun _ => rfl
  have hcalls : ∀ m ∈ messages, ∃ id name, m = calling id name ∧ id.Plain ∧ id.Within 0 ∧
      name ∉ documentMethods := by
    simp only [messages, List.forall_mem_cons]
    exact ⟨⟨_, _, rfl, .int 1, .int (by decide), by decide⟩,
      ⟨_, _, rfl, .null, .null, by decide⟩, ⟨_, _, rfl, .int 1, .int (by decide), by decide⟩,
      ⟨_, _, rfl, .int 2, .int (by decide), by decide⟩, ⟨_, _, rfl, .str _, .str _, by decide⟩,
      ⟨_, _, rfl, .null, .null, by decide⟩, ⟨_, _, rfl, .int 3, .int (by decide), by decide⟩,
      List.forall_mem_nil _⟩
  have hframes : List.Forall₂ Frame.Carries frames bodies := carries_bodies (by decide +kernel)
  have hspoken : Spoken .usual bodies messages := spoken_calls hcalls
  have hsmooth : Smooth server (fun _ => .absent) 3 bodies := smooth_calls hcalls fun _ => rfl
  have hpieces : [frames.flatten.take 40].flatten ++ frames.flatten.drop 40 = frames.flatten := by
    rw [List.flatten_singleton, List.take_append_drop]
  obtain ⟨hstatus, hcount⟩ :=
    replies_once hserver (fun _ => .absent) hframes hspoken hsmooth hpieces false
  have hnumbers : ([.int 1, .int 2, .str "a", .int 3, .null].map fun id =>
      (messages.takeWhile fun m => !isExit m).countP fun m =>
        (request? m).any fun q => q.id = id) = [2, 1, 1, 0, 0] := by decide +kernel
  refine ⟨hframes, hspoken, hsmooth, hstatus, ?_⟩
  rw [← hnumbers]
  exact List.map_congr_left fun id _ => hcount id

/-- A call with a number of 4301 digits. -/
def callingBeyond : Json :=
  .obj [("id", .int 2), ("method", .str "x"), ("params", .int (10 ^ Integer.digitLimit))]

theorem readAll_callingBeyond :
    (Json.readAll Host.usual.reading callingBeyond.chars).toOption = none := by decide +kernel

theorem carries_callingBeyond :
    Frame.Carries (Frame.wrap (bodyOf callingBeyond)) (bodyOf callingBeyond) :=
  carries_bodyOf (by decide +kernel)

theorem bodyEnding?_of_readAll {host : Host} {message : Json}
    (h : (Json.readAll host.reading message.chars).toOption = none) :
    ∃ fault, bodyEnding? host (bodyOf message) = some (.failed fault) := by
  apply bodyEnding?_of_unreadable
  rw [Frame.parseBody, bodyOf, Utf8.decode_encode]
  dsimp only
  rw [Json.ofText, String.toList_ofList]
  cases hall : Json.readAll host.reading message.chars with
  | ok value =>
    rw [hall] at h
    cases h
  | error stop => rfl

/-- The number is in the text of an object with a name for its method. But it is not read:
the session fails, and the request gets no reply. -/
theorem replies_once_beyond :
    let frame := Frame.wrap (bodyOf callingBeyond)
    let outcome := Program.converse (defaultServer fun _ => false) (fun _ => .absent) .initial
      [(frame, false), ([], true)]
    callingBeyond.Plain ∧ Addressed callingBeyond ∧ isExit callingBeyond = false ∧
      (request? callingBeyond).map Request.id = some (.int 2) ∧
      Frame.Carries frame (bodyOf callingBeyond) ∧
      outcome.1.status.Failed ∧ replies outcome.2 = [] := by
  intro frame outcome
  obtain ⟨announced, hserver⟩ := @assemble_default (fun _ => false) fun _ => rfl
  obtain ⟨hreplying, -⟩ := Server.replying_of_assemble hserver
  obtain ⟨fault, hfault⟩ := @bodyEnding?_of_readAll .usual callingBeyond readAll_callingBeyond
  have hframes : List.Forall₂ Frame.Carries [frame] [bodyOf callingBeyond] :=
    .cons carries_callingBeyond .nil
  have hending : [bodyOf callingBeyond].findSome? (bodyEnding? .usual) = some (.failed fault) := by
    rw [List.findSome?_cons, hfault]
  obtain ⟨hstatus, hreplies⟩ := converse_of_failing hreplying (fun _ => rfl) (fun _ => .absent)
    hframes (List.append_nil [frame].flatten) true hending
  refine ⟨by simp [callingBeyond], ⟨⟨_, rfl⟩, .inr (Json.isText_str "x")⟩, rfl, rfl,
    carries_callingBeyond, ⟨fault, hstatus⟩, ?_⟩
  refine List.eq_nil_iff_forall_not_mem.mpr fun reply hreply => ?_
  have hnone : reply.1 ∈ ((heard .usual [bodyOf callingBeyond]).filterMap
      (bodyRequest? .usual)).map Request.id := hreplies reply hreply
  rw [heard_cons_of_some hfault] at hnone
  cases hnone

end RenameServer.Session
