import RenameServer.Proofs.Conversations
import RenameServer.Proofs.Presentable

/-!
Requests that are sure to be answered. A machine that allows answers to be nested
a little deeper than messages lets a server send what comes of a request with a
name for its method, encodable parameters and orderly documents. Documents stay
orderly while the notifications are modest and the texts are of no extreme length.
-/
namespace RenameServer

open Job Json

/-- What a machine has to allow for messages nested at most `depth` times: they are logged,
and so are the answers to them, which are sent too. -/
structure Host.Allows (host : Host) (depth : Nat) : Prop where
  noting : depth ≤ host.noting
  logging : max 8 (depth + 2) ≤ host.logging
  writing : max 8 (depth + 2) ≤ host.writing

/-- A machine that allows values to be nested nine hundred times. -/
def Host.usual : Host := ⟨900, 900, 900, 900, 1, 2⟩

theorem Host.allows_usual : usual.Allows 3 := ⟨by decide, by decide, by decide⟩

namespace Server

theorem sendable_of_tame {host : Host} {n : Nat} {message : Json} (h : message.Tame n)
    (hlogging : n ≤ host.logging) (hwriting : n ≤ host.writing) : Sendable host message :=
  ⟨h.within.mono hlogging, h.within.mono hwriting, h.whole⟩

theorem tame_response {n : Nat} {id result : Json} (hid : id.Tame n) (hresult : result.Tame n) :
    (Message.response id result).Tame (n + 1) :=
  (((fieldsTame_nil.cons hresult).cons hid).cons (tame_str _)).obj

theorem tame_error {n : Nat} {id : Json} {code : Int} (hid : id.Tame (n + 1))
    (hcode : code.natAbs < 10 ^ 5) (text : String) :
    (Message.error id (.int code) (.str text)).Tame (n + 2) :=
  (((fieldsTame_nil.cons ((fieldsTame_nil.cons (tame_str text)).cons
    (tame_int_of_lt hcode)).obj).cons hid).cons (tame_str _)).obj

theorem tame_initializeResult : initializeResult.Tame 3 :=
  ((fieldsTame_nil.cons ((fieldsTame_nil.cons (tame_str _)).cons (tame_str _)).obj).cons
    ((fieldsTame_nil.cons (fieldsTame_nil.cons (tame_bool _)).obj).cons
      ((fieldsTame_nil.cons (tame_int_of_lt (by decide))).cons (tame_bool _)).obj).obj).obj

/-- A text that can be encoded can be shown to the client. -/
theorem sendable_showError {host : Host} {depth : Nat} (h : host.Allows depth) (text : String) :
    Sendable host (Message.showError (.plain text)) := by
  have htame : (Message.showError (.plain text)).Tame 2 :=
    (((fieldsTame_nil.cons ((fieldsTame_nil.cons (tame_str text)).cons
      (tame_int_of_lt (by decide))).obj).cons (tame_str _)).cons (tame_str _)).obj
  have hlogging := h.logging
  have hwriting := h.writing
  exact sendable_of_tame htame (by omega) (by omega)

section

variable {server : Server} (hserver : server.Replying) {depth : Nat}
variable (hallows : server.host.Allows depth) {disk : Disk} {w : Workspace}

include hserver hallows

/-- What comes of showing a text depends on the text only. -/
theorem Replying.exists_reaches (disk : Disk) : ∃ shown, server.service.Reaches disk shown := by
  refine ⟨fun text => (server.service.send (Message.showError text)).outcome disk .empty,
    fun text w => ?_, fun text => ?_⟩
  · rw [result_run_alone, hserver.send]
    exact (outcome_send (outgoing_showError text)).trans
      (outcome_send (outgoing_showError text)).symm
  · rw [hserver.send]
    exact (outcome_send_eq_ok_iff (outgoing_showError (.plain text))).mpr
      (sendable_showError hallows text)

theorem Replying.outcome_response {n : Nat} (hn : n + 1 ≤ max 8 (depth + 2)) {id result : Json}
    (hid : id.Tame n) (hresult : result.Tame n) :
    (server.tell (Message.response id result)).outcome disk w = .ok () := by
  rw [hserver.tell_eq]
  exact (outcome_send_eq_ok_iff (.inl rfl)).mpr (sendable_of_tame (tame_response hid hresult)
    (Nat.le_trans hn hallows.logging) (Nat.le_trans hn hallows.writing))

variable {id : Json} (hid : id.Tame depth)

include hid

theorem Replying.outcome_error {code : Int} (hcode : code.natAbs < 10 ^ 5) (text : String) :
    (server.tell (Message.error id (.int code) (.str text))).outcome disk w = .ok () := by
  have htame := tame_error (hid.mono (Nat.le_succ depth)) hcode text
  have hle : depth + 2 ≤ max 8 (depth + 2) := Nat.le_max_right ..
  rw [hserver.tell_eq]
  exact (outcome_send_eq_ok_iff (.inl rfl)).mpr
    (sendable_of_tame htame (Nat.le_trans hle hallows.logging) (Nat.le_trans hle hallows.writing))

/-- A handler that comes to a tame result or a plain fault is answered for. -/
theorem Replying.outcome_serve {n : Nat} (hn : n + 1 ≤ max 8 (depth + 2)) (hdepth : depth ≤ n)
    (name : String) {job : Job Json} (h : Presents (Json.Tame n) (job.outcome disk w)) :
    (server.serve id name job).outcome disk w = .ok () := by
  rw [serve, outcome_bind, outcome_attempt]
  cases hjob : job.outcome disk w with
  | ok result =>
    rw [hjob] at h
    exact hserver.outcome_response hallows hn (hid.mono hdepth) h
  | error fault =>
    rw [hjob] at h
    obtain ⟨text, htext⟩ := h
    change (server.tell (Message.error id _ (.ofStr fault.message))).outcome disk w = .ok ()
    rw [htext]
    exact hserver.outcome_error hallows hid (by decide) text

variable (hrenamer : server.service.renamer.Tidy) (hdisk : disk.Brief)
variable (hw : ∀ d ∈ w.documents, d.Orderly (depth - 3)) {params : Json} (hparams : params.Whole)

include hrenamer hdisk hw hparams

theorem Replying.outcome_handler {name : String} {handler : Json → Job Json}
    (h : server.handler? name = some handler) :
    (server.serve id name (handler params)).outcome disk w = .ok () := by
  -- The result of a rename is nested as deep as positions in edits or as versions.
  have hn : max 4 (depth - 3 + 1) + 3 + 1 ≤ max 8 (depth + 2) := by omega
  have hdepth : depth ≤ max 4 (depth - 3 + 1) + 3 := by omega
  refine hserver.outcome_serve hallows hid hn hdepth name ?_
  rw [handler?] at h
  split at h
  · obtain rfl := Option.some.inj h
    exact (RenameService.presents_prepare hw hdisk hparams).imp fun _ hresult =>
      hresult.mono (by omega)
  split at h
  · obtain rfl := Option.some.inj h
    obtain ⟨shown, hreaches⟩ := hserver.exists_reaches hallows disk
    rw [outcome_bind]
    exact (RenameService.presents_rename hw hdisk (Nat.le_max_left ..) (Nat.le_max_right ..)
      hreaches hrenamer hparams).bind fun edit hedit => hedit
  · cases h

/-- The job of a request by name goes through. -/
theorem Replying.outcome_answer (shuttingDown : Bool) (name : String) :
    (server.answer shuttingDown id (.str name) params).outcome disk w = .ok () := by
  have hunknown : (server.answerUnknown id (.str name)).outcome disk w = .ok () :=
    hserver.outcome_error hallows hid (by decide) ("Unhandled method " ++ name)
  have hmax : depth + 1 ≤ max 8 (depth + 2) := by omega
  unfold answer
  split
  · exact hserver.outcome_response hallows (n := max 3 depth) (by omega)
      (hid.mono (Nat.le_max_right ..)) (tame_initializeResult.mono (Nat.le_max_left ..))
  · exact hserver.outcome_response hallows hmax hid tame_null
  split
  · exact hserver.outcome_error hallows hid (by decide) _
  cases hhandler : server.handler? name with
  | none =>
    simp only [hhandler]
    exact hunknown
  | some handler =>
    simp only [hhandler]
    exact hserver.outcome_handler hallows hid hrenamer hdisk hw hparams hhandler

end

end Server

namespace Session

open Utf8 (Bytes)

/-! ### Requests by name -/

/-- A request with a name for its method, for parameters and documents nested so deep. -/
structure Arrival.Answerable (depth : Nat) (a : Arrival) : Prop where
  method : ∃ name, a.request.method = .str name
  id : a.request.id.Tame depth
  params : a.request.params.Whole
  documents : ∀ d ∈ a.workspace.documents, d.Orderly (depth - 3)

theorem Arrival.Answerable.exists_reply {server : Server} (hserver : server.Replying)
    (hwritable : ∀ e, server.fails e = false) (hrenamer : server.service.renamer.Tidy) {depth : Nat}
    (hallows : server.host.Allows depth) {disk : Disk} (hdisk : disk.Brief) {a : Arrival}
    (h : a.Answerable depth) : ∃ message, a.reply? server disk = some (a.request.id, message) := by
  obtain ⟨⟨name, hmethod⟩, hid, hparams, hdocuments⟩ := h
  have hok : (a.job server).outcome disk a.workspace = .ok () := by
    rw [Arrival.job, stopAt_of_writable hwritable, hmethod]
    exact hserver.outcome_answer hallows hid hrenamer hdisk hdocuments hparams a.shuttingDown name
  rcases (a.reply?_cases hserver disk).2 with ⟨hsome, -⟩ | ⟨-, fault, hfault⟩
  · exact hsome
  · cases hok.symm.trans hfault

/-! ### Documents of modest notifications -/

end Session

namespace Workspace

/-- The labels that an operation gives to a document are tame. -/
def Operation.Labels (depth : Nat) : Operation → Prop
  | .openDocument d => d.uri.Tame depth ∧ d.version.Tame depth
  | .update uri _ version => uri.Tame depth ∧ version.Tame depth
  | .change uri _ version => uri.Tame depth ∧ version.Tame depth
  | .closeDocument _ => True

variable {w w' : Workspace} {depth : Nat}

theorem labelled_put (hw : ∀ d ∈ w.documents, d.Labelled depth) {d : Document} {key : Json}
    (hkey : d.uri.asKey = .ok key) (huri : d.uri.Tame depth) (hversion : d.version.Tame depth) :
    ∀ e ∈ (w.put d).documents, e.Labelled depth := by
  intro e he
  rcases mem_insert he with rfl | he
  · exact ⟨huri.of_asKey hkey, hversion⟩
  · exact hw e he

theorem labelled_update (hw : ∀ d ∈ w.documents, d.Labelled depth) {uri text version : Json}
    (huri : uri.Tame depth) (hversion : version.Tame depth)
    (h : w.update uri text version = .ok w') : ∀ e ∈ w'.documents, e.Labelled depth := by
  obtain ⟨d, hget, h⟩ := exists_of_bind_ok h
  obtain ⟨key, hkey, -⟩ := exists_of_bind_ok hget
  obtain rfl := Except.ok.inj h
  exact labelled_put hw hkey huri hversion

/-- Operations with tame labels leave documents with tame labels. -/
theorem Operation.Labels.run {op : Operation} (hop : op.Labels depth)
    (hw : ∀ d ∈ w.documents, d.Labelled depth) : ∀ d ∈ (op.run w).documents, d.Labelled depth := by
  unfold Operation.run
  split
  · next w' happly =>
    cases op with
    | openDocument d =>
      obtain ⟨key, hkey, hput⟩ := exists_of_bind_ok happly
      obtain rfl := Except.ok.inj hput
      exact labelled_put hw hkey hop.1 hop.2
    | update uri text version => exact labelled_update hw hop.1 hop.2 happly
    | change uri changes version =>
      obtain ⟨d, -, hrest⟩ := exists_of_bind_ok happly
      obtain ⟨items, -, hrest⟩ := exists_of_bind_ok hrest
      obtain ⟨text, -, hrest⟩ := exists_of_bind_ok hrest
      exact labelled_update hw hop.1 hop.2 hrest
    | closeDocument uri =>
      obtain ⟨key, -, hclose⟩ := exists_of_bind_ok happly
      obtain rfl := Except.ok.inj hclose
      exact fun d hd => hw d (List.mem_of_mem_eraseP hd)
  · exact hw

end Workspace

theorem Json.Tame.getOr {depth : Nat} {value absent x : Json} {key : String}
    (h : value.Tame (depth + 1)) (habsent : absent.Tame depth)
    (hx : value.getOr key absent = .ok x) : x.Tame depth := by
  cases value with
  | obj fields =>
    obtain rfl := Except.ok.inj hx
    cases hfield : lookup key fields with
    | none => exact habsent
    | some found => exact ⟨h.within.field? hfield, h.whole.field? hfield⟩
  | _ => cases hx

/-- The operation of a notification takes its labels from the parameters. -/
theorem Server.labels_of_operation? {depth : Nat} {method params : Json}
    (h : params.Tame (depth + 2)) {op : Workspace.Operation}
    (hop : operation? method params = .ok (some op)) : op.Labels depth := by
  obtain ⟨document, hdocument, hop⟩ := exists_of_bind_ok hop
  obtain ⟨uri, huri, hop⟩ := exists_of_bind_ok hop
  have htame : document.Tame (depth + 1) := h.getOr fieldsTame_nil.obj hdocument
  have huri := htame.getOr tame_null huri
  split at hop
  · obtain ⟨text, -, hop⟩ := exists_of_bind_ok hop
    obtain ⟨version, hversion, hop⟩ := exists_of_bind_ok hop
    obtain ⟨languageId, -, hop⟩ := exists_of_bind_ok hop
    obtain rfl := Option.some.inj (Except.ok.inj hop)
    exact ⟨huri, htame.getOr (tame_int_of_lt (by decide)) hversion⟩
  · obtain ⟨changes, -, hop⟩ := exists_of_bind_ok hop
    obtain ⟨version, hversion, hop⟩ := exists_of_bind_ok hop
    obtain rfl := Option.some.inj (Except.ok.inj hop)
    exact ⟨huri, htame.getOr (tame_int_of_lt (by decide)) hversion⟩
  · obtain rfl := Option.some.inj (Except.ok.inj hop)
    trivial
  · cases hop

namespace Session

open Utf8 (Bytes)

theorem tame_field {depth : Nat} {message : Json} (h : message.Tame (depth + 1)) (key : String) :
    ((message.field? key).getD .null).Tame depth := by
  cases hfield : message.field? key with
  | none => exact tame_null
  | some x => exact ⟨h.within.field? hfield, h.whole.field? hfield⟩

theorem tame_paramsOf {depth : Nat} {message : Json} (h : message.Tame (depth + 2)) :
    (paramsOf message).Tame (depth + 1) := by
  simp only [paramsOf]
  split
  · exact tame_field h "params"
  · exact fieldsTame_nil.obj

theorem labels_of_notice? {depth : Nat} {message : Json} (h : message.Tame (depth + 3))
    {op : Workspace.Operation} (hop : notice? message = some op) : op.Labels depth := by
  by_cases hid : idOf message = .null
  · rw [notice?_of_no_id hid] at hop
    generalize hx : Server.operation? (methodOf message) (paramsOf message) = x at hop
    cases x with
    | error fault => cases hop
    | ok found =>
      obtain rfl : found = some op := hop
      exact Server.labels_of_operation? (tame_paramsOf h) hx
  · cases (notice?_of_id hid).symm.trans hop

/-- A body that holds a message as clients send them: an object with a name for its method,
if it has a method, that can be encoded and is nested at most `depth` times. -/
def Modest (host : Host) (depth : Nat) (body : Bytes) : Prop :=
  ∃ message, Frame.parseBody host.reading body = .ok message ∧ Addressed message ∧
    message.Tame depth

section

variable {host : Host} {depth : Nat}

/-- A modest body ends the session only if it is an exit. -/
theorem Modest.bodyEnding? (hnoting : depth ≤ host.noting) {body : Bytes} {message : Json}
    (h : Modest host depth body) (hparse : Frame.parseBody host.reading body = .ok message) :
    Session.bodyEnding? host body = if isExit message then some .ended else none := by
  obtain ⟨held, hheld, haddressed, htame⟩ := h
  obtain rfl := Except.ok.inj (hheld.symm.trans hparse)
  rw [Session.bodyEnding?, hparse]
  exact ending?_of_within haddressed (htame.within.mono hnoting)

theorem labelled_informed {bodies : List Bytes} (h : ∀ b ∈ bodies, Modest host depth b)
    {w : Workspace} (hw : ∀ d ∈ w.documents, d.Labelled (depth - 3)) :
    ∀ d ∈ (informed host w bodies).documents, d.Labelled (depth - 3) := by
  induction bodies generalizing w with
  | nil => exact hw
  | cons body bodies ih =>
    obtain ⟨⟨message, hparse, -, htame⟩, hrest⟩ := List.forall_mem_cons.mp h
    rw [informed_cons]
    apply ih hrest
    cases hnotice : bodyNotice? host body with
    | none => exact hw
    | some op =>
      rw [bodyNotice?, hparse] at hnotice
      have htame : message.Tame (depth - 3 + 3) := htame.mono (by omega)
      exact (labels_of_notice? htame hnotice).run hw

/-- The texts of all documents are of no extreme length, whichever of the bodies have come. -/
def BriefTexts (host : Host) (bodies : List Bytes) : Prop :=
  ∀ before, before <+: bodies → ∀ d ∈ (informed host .empty before).documents, d.Short

/-- A request among modest bodies is answerable in every workspace that they make. -/
theorem Modest.answerable {bodies : List Bytes} (h : ∀ b ∈ bodies, Modest host depth b)
    (hbrief : BriefTexts host bodies) {a : Arrival} {body : Bytes} (hbody : body ∈ bodies)
    (hrequest : bodyRequest? host body = some a.request) {before : List Bytes}
    (hbefore : before <+: bodies) (hworkspace : a.workspace = informed host .empty before) :
    a.Answerable depth := by
  obtain ⟨message, hparse, haddressed, htame⟩ := h body hbody
  rw [bodyRequest?, hparse] at hrequest
  replace hrequest : request? message = some a.request := hrequest
  rw [request?_of_addressed haddressed] at hrequest
  split at hrequest
  · cases hrequest
  next hboth =>
    rw [not_or] at hboth
    obtain ⟨text, htext⟩ := haddressed.method.resolve_left hboth.1
    have hmessage : message.Tame (depth + 2) := htame.mono (Nat.le_add_right ..)
    have hmethod := tame_field (hmessage.mono (Nat.le_succ _)) "method"
    have hlabelled := labelled_informed (w := .empty)
      (fun b hb => h b (hbefore.subset hb)) (List.forall_mem_nil _)
    have heq := Option.some.inj hrequest
    refine ⟨?_, ?_, ?_, ?_⟩
    · rw [← heq]
      cases text with
      | plain name => exact ⟨name, htext⟩
      | ragged r =>
        change (methodOf message).Tame _ at hmethod
        rw [htext] at hmethod
        cases not_whole_ragged r hmethod.whole
    · rw [← heq]
      exact tame_field (htame.mono (Nat.le_succ _)) "id"
    · rw [← heq]
      exact (tame_paramsOf hmessage).whole
    · rw [hworkspace]
      exact fun d hd => ⟨hlabelled d hd, hbrief before hbefore d hd⟩

end

/-! ### Smooth sessions -/

/-- A session in which nothing goes wrong: the log can be written, the renamer is tidy, the
machine allows what the bodies and the answers to them hold, the bodies are modest, and
neither files nor documents are of extreme length. -/
structure Smooth (server : Server) (disk : Disk) (depth : Nat) (bodies : List Bytes) : Prop where
  writable : ∀ e, server.fails e = false
  tidy : server.service.renamer.Tidy
  allows : server.host.Allows depth
  files : disk.Brief
  modest : ∀ b ∈ bodies, Modest server.host depth b
  texts : BriefTexts server.host bodies

section

variable {server : Server} {disk : Disk} {depth : Nat} {bodies : List Bytes}

/-- If a smooth session is ended by a body, it does not fail. -/
theorem Smooth.not_failed (h : Smooth server disk depth bodies) (closed : Bool) :
    ¬ ((bodies.findSome? (bodyEnding? server.host)).getD
      (if closed then .ended else .running)).Failed := by
  rintro ⟨fault, hfault⟩
  cases hending : bodies.findSome? (bodyEnding? server.host) with
  | none =>
    rw [hending] at hfault
    cases closed <;> cases hfault
  | some status =>
    rw [hending, Option.getD_some] at hfault
    obtain ⟨body, hbody, hstatus⟩ := List.exists_of_findSome?_eq_some hending
    obtain ⟨message, hparse, -⟩ := h.modest body hbody
    rw [(h.modest body hbody).bodyEnding? h.allows.noting hparse] at hstatus
    split at hstatus
    · cases hfault ▸ hstatus
    · cases hstatus

/-- A request of a smooth session is answered in every workspace that the session comes to. -/
theorem Smooth.exists_reply (h : Smooth server disk depth bodies) (hserver : server.Replying)
    {a : Arrival}
    (hrequest : a.request ∈ (heard server.host bodies).filterMap (bodyRequest? server.host))
    (hreached : ∃ before, before <+: heard server.host bodies ∧
      a.workspace = informed server.host .empty before) :
    ∃ message, a.reply? server disk = some (a.request.id, message) := by
  have hheard : heard server.host bodies <+: bodies := List.takeWhile_prefix _
  obtain ⟨before, hbefore, hworkspace⟩ := hreached
  obtain ⟨body, hbody, hrequest⟩ := List.mem_filterMap.mp hrequest
  exact (Modest.answerable h.modest h.texts (hheard.subset hbody) hrequest
    (hbefore.trans hheard) hworkspace).exists_reply hserver h.writable h.tidy h.allows h.files

/-- The requests of a smooth session are answered, and it ends as the bodies say. -/
theorem Smooth.concluded (h : Smooth server disk depth bodies) (hserver : server.Replying)
    {closed : Bool} {served : List Arrival} {outcome : Session × List Event}
    {begun : List (Job Unit)}
    (hconcluded : Concluded server disk (absorb server .empty false bodies)
      (atEnd server closed (absorb server .empty false bodies).status) served outcome begun)
    (hreached : ∀ a ∈ served, ∃ before, before <+: heard server.host bodies ∧
      a.workspace = informed server.host .empty before) :
    (∀ a ∈ served, ∃ message, a.reply? server disk = some (a.request.id, message)) ∧
      outcome.1.status = (bodies.findSome? (bodyEnding? server.host)).getD
        (if closed then .ended else .running) ∧
      ¬ outcome.1.status.Failed := by
  have hanswered : ∀ a ∈ served,
      ∃ message, a.reply? server disk = some (a.request.id, message) := by
    refine fun a ha => h.exists_reply hserver ?_ (hreached a ha)
    rw [← (absorb_spec h.writable .empty false bodies).2.2, ← hconcluded.requests]
    exact List.mem_map_of_mem ha
  have hstatus := hconcluded.status
  rw [atEnd_absorb h.writable] at hstatus
  have hstop : outcome.1.status = (bodies.findSome? (bodyEnding? server.host)).getD
      (if closed then .ended else .running) := by
    rcases hstatus with hstatus | ⟨-, -, a, ha, hnone⟩
    · exact hstatus
    · obtain ⟨message, hsome⟩ := hanswered a ha
      cases hnone.symm.trans hsome
  exact ⟨hanswered, hstop, hstop ▸ h.not_failed closed⟩

end

end Session

end RenameServer
