import RenameServer.Program
import RenameServer.Proofs.Replies
import RenameServer.Proofs.Writing

/-!
What a server sends. A message reaches the client if it can be logged, written
and encoded; otherwise sending it is a fault of the job that sends it. Whatever a
request asks for, its job replies once under the id of the request, or is ended by
a fault.
-/
namespace RenameServer

open Event Job

namespace Stream

variable {α : Type} {p q : Event → Prop}

theorem Emits.imp {s : Stream α} (h : s.Emits p) (hpq : ∀ event, p event → q event) :
    s.Emits q := by
  induction s with
  | done => trivial
  | raise fault => trivial
  | emit event rest ih => exact ⟨hpq event h.1, ih h.2⟩
  | look rest ih => exact fun w => ih w (h w)
  | item a rest ih => exact ih h

end Stream

/-- A value that is a text, whether or not it can be encoded. -/
def Json.IsText (value : Json) : Prop := ∃ text : Str, value = .ofStr text

theorem Json.isText_str (s : String) : (Json.str s).IsText := ⟨.plain s, rfl⟩

namespace Server

/-! ### Log entries -/

/-- A message whose method is a text is logged as it is. -/
theorem logMessage_of_isText {method : Json} (h : method.IsText) (depth : Nat) (direction : String)
    (fields : List (Str × Json)) :
    ∃ label : Str, logMessage depth direction (.obj fields) method =
      ((Json.obj fields).written depth).map fun text =>
        (.note (direction ++ " " ++ label ++ " " ++ text), method, .obj fields) := by
  have hlabel : ∀ id : Json, ∃ label : Str, Message.label (.obj fields) method id =
      .ok (label, method, .obj fields) := by
    obtain ⟨text, rfl⟩ := h
    intro id
    cases text <;> cases id <;> exact ⟨_, rfl⟩
  obtain ⟨label, hlabel⟩ := hlabel ((Json.lookup "id" fields).getD .null)
  refine ⟨label, ?_⟩
  rw [logMessage, Json.getOr]
  change (Message.label _ _ _ >>= _) = _
  rw [hlabel]
  change ((Json.obj fields).written depth >>= _) = _
  cases (Json.obj fields).written depth <;> rfl

/-! ### Messages to the client -/

/-- A message that can be logged, written and encoded. -/
structure Sendable (host : Host) (message : Json) : Prop where
  logged : message.Within host.logging
  written : message.Within host.writing
  whole : message.Whole

/-- The fields of a response, or of a notification with a name. -/
def Outgoing (fields : List (Str × Json)) : Prop :=
  Json.lookup "method" fields = none ∨
    ∃ name, name ≠ "" ∧ Json.lookup "method" fields = some (.str name)

section

variable {host : Host} {fields : List (Str × Json)} {id : Json} {disk : Disk} {w : Workspace}

/-- A message is logged, encoded and sent, as far as it can be. -/
theorem send_of_outgoing (h : Outgoing fields) (host : Host) :
    ∃ label : Str, send host true (.obj fields) =
      (ofExcept ((Json.obj fields).written host.logging)).bind fun text =>
        .emit (.note (("<--" : String) ++ (" " : String) ++ label ++ " " ++ text))
          ((ofExcept (Frame.encode host.writing (.obj fields))).bind fun _ =>
            .emit (.sent (.obj fields)) (.done ())) := by
  generalize hmethod : (Json.lookup "method" fields).getD .null = method
  have htext : (if method.isGiven then method else .str "response").IsText := by
    subst hmethod
    rcases h with hnone | ⟨name, -, hname⟩
    · rw [hnone]
      exact Json.isText_str _
    · rw [hname]
      split <;> exact Json.isText_str _
  obtain ⟨label, hlog⟩ := logMessage_of_isText htext host.logging "<--" fields
  refine ⟨label, ?_⟩
  rw [send, if_pos rfl, Json.getOr, hmethod]
  change (ofExcept (logMessage _ _ _ _)).bind _ = _
  rw [hlog]
  cases (Json.obj fields).written host.logging <;> rfl

theorem outcome_send (h : Outgoing fields) :
    (send host true (.obj fields)).outcome disk w =
      (Json.obj fields).written host.logging >>= fun _ =>
        (Frame.encode host.writing (.obj fields)).map fun _ => () := by
  obtain ⟨label, hsend⟩ := send_of_outgoing h host
  rw [hsend]
  cases (Json.obj fields).written host.logging with
  | error fault => rfl
  | ok text => cases hframe : Frame.encode host.writing (.obj fields) <;> rfl

/-- Sending a message that cannot be sent is a fault, and nothing else is one. -/
theorem outcome_send_eq_ok_iff (h : Outgoing fields) :
    (send host true (.obj fields)).outcome disk w = .ok () ↔ Sendable host (.obj fields) := by
  rw [outcome_send h]
  constructor
  · intro hok
    obtain ⟨text, hwritten, hok⟩ := exists_of_bind_ok hok
    obtain ⟨frame, hframe, -⟩ := exists_of_map_ok hok
    obtain ⟨hwithin, hwhole, -⟩ := Frame.encode_eq_ok_iff.mp hframe
    exact ⟨(Json.written_eq_ok_iff.mp hwritten).1, hwithin, hwhole⟩
  · rintro ⟨hlogged, hwritten, hwhole⟩
    rw [Json.written_eq_ok_iff.mpr ⟨hlogged, rfl⟩,
      Frame.encode_eq_ok_iff.mpr ⟨hwritten, hwhole, rfl⟩]
    rfl

theorem answers_send (hid : Json.lookup "id" fields = some id) (h : Outgoing fields) :
    (send host true (.obj fields)).Answers id := by
  obtain ⟨label, hsend⟩ := send_of_outgoing h host
  have hreply : (Event.sent (.obj fields)).reply? = some (id, .obj fields) :=
    congrArg (Option.map fun id => (id, Json.obj fields)) hid
  rw [hsend]
  cases (Json.obj fields).written host.logging with
  | error fault => trivial
  | ok text =>
    refine .inr ⟨silent_log _, ?_⟩
    cases Frame.encode host.writing (.obj fields) with
    | error fault => trivial
    | ok frame => exact .inl ⟨⟨_, hreply⟩, rfl⟩

/-- What can be sent is sent. -/
theorem replies_send (hid : Json.lookup "id" fields = some id) (h : Outgoing fields)
    (hsendable : Sendable host (.obj fields)) (p : Nat) :
    replies ((send host true (.obj fields)).run disk alone p w).events = [(id, .obj fields)] := by
  obtain ⟨label, hsend⟩ := send_of_outgoing h host
  have hreply : (Event.sent (.obj fields)).reply? = some (id, .obj fields) :=
    congrArg (Option.map fun id => (id, Json.obj fields)) hid
  rw [hsend, Json.written_eq_ok_iff.mpr ⟨hsendable.logged, rfl⟩,
    Frame.encode_eq_ok_iff.mpr ⟨hsendable.written, hsendable.whole, rfl⟩]
  exact List.filterMap_cons_some hreply

theorem result_send (h : Outgoing fields) (hsendable : Sendable host (.obj fields))
    (schedule : Schedule) (p : Nat) :
    ((send host true (.obj fields)).run disk schedule p w).result = .ok () := by
  obtain ⟨label, hsend⟩ := send_of_outgoing h host
  rw [hsend, Json.written_eq_ok_iff.mpr ⟨hsendable.logged, rfl⟩,
    Frame.encode_eq_ok_iff.mpr ⟨hsendable.written, hsendable.whole, rfl⟩]
  rfl

theorem outgoing_showError (text : Str) :
    Outgoing [("jsonrpc", .str "2.0"), ("method", .str "window/showMessage"),
      ("params", .obj [("type", .int Message.errorType), ("message", .ofStr text)])] :=
  .inr ⟨"window/showMessage", by decide, rfl⟩

theorem emits_showError (host : Host) (text : Str) :
    (send host true (Message.showError text)).Emits Silent := by
  obtain ⟨label, hsend⟩ := send_of_outgoing (outgoing_showError text) host
  change (send host true (.obj _)).Emits Silent
  rw [hsend]
  refine (emits_ofExcept _).bind fun _ => ⟨silent_log _, ?_⟩
  exact (emits_ofExcept _).bind fun _ => ⟨rfl, trivial⟩

end

/-! ### The jobs of requests -/

/-- A server that is connected, and so is its rename service. -/
structure Replying (server : Server) : Prop where
  connected : server.connected = true
  send : server.service.send = Server.send server.host true

/-- Every preset gives a server that replies. -/
theorem replying_of_assemble {places : Preset.Places} {catalogue : Preset.Catalogue}
    {preset : String} {every : Int} {fails : Event → Bool} {host : Host} {server : Server}
    {announced : List Event}
    (h : Program.assemble places catalogue preset every true fails host = .ok (server, announced)) :
    server.Replying ∧ server.fails = fails ∧ server.host = host ∧
      ∃ renamers, Preset.load places catalogue preset = .ok renamers ∧
        server.service.renamer = Chain.renamer renamers := by
  obtain ⟨renamers, hload, h⟩ := exists_of_bind_ok h
  obtain ⟨made, hmade, h⟩ := exists_of_bind_ok h
  obtain ⟨service, hservice, hmade⟩ := exists_of_bind_ok hmade
  obtain rfl := Except.ok.inj hmade
  rw [RenameService.ofEvery] at hservice
  split at hservice
  · cases hservice
  obtain rfl := Except.ok.inj hservice
  dsimp only at h
  split at h
  · cases h
  obtain ⟨rfl, -⟩ := Prod.mk.inj (Except.ok.inj h)
  exact ⟨⟨rfl, rfl⟩, rfl, rfl, renamers, hload, rfl⟩

/-- With a length to cut entries to, every entry of the log can be written. -/
theorem failing_of_length (level : Log.Level) (length : Int) (e : Event) :
    Program.failing ⟨level, some length⟩ e = false := by
  cases e with
  | log entry => simp [Program.failing, Event.entry?, Log.Settings.fails]
  | _ => rfl

variable {server : Server} (hserver : server.Replying)

include hserver

theorem Replying.tell_eq (message : Json) :
    server.tell message = Server.send server.host true message := by
  rw [tell, hserver.connected]

theorem Replying.emits_handler {name : String} {handler : Json → Job Json}
    (h : server.handler? name = some handler) (params : Json) :
    (handler params).Emits Silent := by
  rw [handler?] at h
  split at h
  · obtain rfl := Option.some.inj h
    exact RenameService.emits_prepare silent_log server.service params
  split at h
  · obtain rfl := Option.some.inj h
    have hrename := RenameService.emits_rename silent_log
      (fun s offset newName =>
        (server.service.renamer.quiet s offset newName).imp fun _ => silent_of_message?)
      (fun text => by rw [hserver.send]; exact emits_showError server.host text) params
    exact hrename.bind fun _ => trivial
  · cases h

theorem Replying.answers_response (id result : Json) :
    (server.tell (Message.response id result)).Answers id := by
  rw [hserver.tell_eq]
  exact answers_send rfl (.inl rfl)

theorem Replying.answers_error (id code text : Json) :
    (server.tell (Message.error id code text)).Answers id := by
  rw [hserver.tell_eq]
  exact answers_send rfl (.inl rfl)

theorem Replying.answers_serve (id : Json) (name : String) {job : Job Json}
    (h : job.Emits Silent) : (server.serve id name job).Answers id := by
  refine answers_attempt_bind h fun r => ?_
  cases r with
  | ok result => exact hserver.answers_response id result
  | error fault =>
    exact .inr ⟨silent_log _, .inr ⟨silent_log _, hserver.answers_error ..⟩⟩

/-- Whatever the method is, the job of a request replies once, under its id, or is ended
by a fault. -/
theorem Replying.answers_answer (shuttingDown : Bool) (id method params : Json) :
    (server.answer shuttingDown id method params).Answers id := by
  have hunknown : ∀ method, (server.answerUnknown id method).Answers id := fun method =>
    .inr ⟨silent_log _, hserver.answers_error ..⟩
  unfold answer
  split
  · exact hserver.answers_response ..
  · exact hserver.answers_response ..
  split
  · exact hserver.answers_error ..
  split
  · trivial
  · trivial
  · next name _ _ =>
    split
    · exact hunknown _
    · next handler hhandler =>
      exact hserver.answers_serve id name (hserver.emits_handler hhandler params)
  · exact hunknown _

end Server

end RenameServer
