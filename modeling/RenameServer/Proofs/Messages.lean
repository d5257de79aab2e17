import RenameServer.Proofs.Sending
import RenameServer.Proofs.Values

/-!
What a message says. A message has a method, an id and parameters; from these it
can be told whether it is a request, whether it is a notification about documents,
and whether it ends the session. A session takes in a message as it reads, if the
log can be written.
-/
namespace RenameServer.Session

open Event Job

/-! ### The parts of a message -/

def methodOf (message : Json) : Json := (message.field? "method").getD .null

def idOf (message : Json) : Json := (message.field? "id").getD .null

/-- The parameters of a message. Without any, they are an empty object. -/
def paramsOf (message : Json) : Json :=
  let given := (message.field? "params").getD .null
  if given.isGiven then given else .obj []

def isExit (message : Json) : Bool := methodOf message = .str "exit"

/-- A method as it is after a message with this id has been logged: an array has taken
the id as further items. -/
def queuedAs (method id : Json) : Json :=
  match method, id with
  | method, .null => method
  | .arr items, id => .arr (items ++ ("[" ++ id.display ++ "]").points.map Json.ofPoint)
  | method, _ => method

/-- The request that a message makes, if it has both a method and an id. -/
def request? (message : Json) : Option Request :=
  if methodOf message = .null ∨ idOf message = .null then none
  else some ⟨idOf message, queuedAs (methodOf message) (idOf message), paramsOf message⟩

/-- The methods of notifications about documents. -/
def documentMethods : List String :=
  ["textDocument/didOpen", "textDocument/didChange", "textDocument/didClose"]

/-- What a message does to the documents: a notification about them that can be read
asks for an operation, and no other message does. -/
def notice? (message : Json) : Option Workspace.Operation :=
  match methodOf message with
  | .str name =>
    if idOf message = .null ∧ name ∈ documentMethods then
      (Server.operation? (.str name) (paramsOf message)).toOption.join
    else none
  | _ => none

/-- How a message ends the session, if it does. What is no object ends it, and so does
an exit; and a message with a method has to be logged. -/
def ending? (depth : Nat) (message : Json) : Option Status :=
  match message with
  | .null => some .ended
  | .obj _ =>
    if methodOf message = .null then none
    else
      match Server.logMessage depth "-->" message (methodOf message) with
      | .error fault => some (.failed fault)
      | .ok _ => if isExit message then some .ended else none
  | other => some (.failed (.wrongKind (.member "get") other.kind))

/-- A session that is ended by a message does not go on. -/
theorem ending?_ne_running (depth : Nat) (message : Json) :
    ending? depth message ≠ some .running := by
  unfold ending?
  split
  · simp
  · split
    · simp
    · split
      · simp
      · split <;> simp
  · simp

/-! ### Notifications -/

theorem operation?_of_other {method : Json} (h : ∀ name ∈ documentMethods, method ≠ .str name)
    (params : Json) : (Server.operation? method params).toOption.join = none := by
  rw [Server.operation?]
  cases params.getOr "textDocument" (.obj []) with
  | error fault => rfl
  | ok document =>
    change (document.getOr "uri" .null >>= _).toOption.join = none
    cases document.getOr "uri" .null with
    | error fault => rfl
    | ok uri =>
      dsimp only [bind, Except.bind]
      split
      · exact absurd rfl (h "textDocument/didOpen" (by decide))
      · exact absurd rfl (h "textDocument/didChange" (by decide))
      · exact absurd rfl (h "textDocument/didClose" (by decide))
      · rfl

theorem notice?_of_id {message : Json} (h : idOf message ≠ .null) : notice? message = none := by
  unfold notice?
  split
  · exact if_neg fun hnull => h hnull.1
  · rfl

theorem notice?_of_no_id {message : Json} (h : idOf message = .null) :
    notice? message = (Server.operation? (methodOf message) (paramsOf message)).toOption.join := by
  unfold notice?
  split
  · next name hname =>
    rw [hname]
    split
    · rfl
    · next hother =>
      refine (operation?_of_other (fun other hmem heq => hother ⟨h, ?_⟩) _).symm
      rwa [Json.str.inj heq]
  · next hother => exact (operation?_of_other (fun name _ => hother name) _).symm

/-! ### Handling a message -/

theorem silent_notify (w : Workspace) (method params : Json) :
    ∀ e ∈ (Server.notify w method params).1, e.Silent := by
  rw [Server.notify]
  split
  · simp
  · simp [Event.debug, silent_log]
  · next op _ => cases op <;> simp [Workspace.Operation.announce, Event.debug, silent_log]

theorem silent_dispatch (w : Workspace) (method id params : Json) :
    ∀ e ∈ (dispatch w method id params).events, e.Silent := by
  unfold dispatch
  split
  · simp
  · have hnotify := silent_notify w method params
    split
    · next heq => simpa only [heq] using hnotify
    · next heq =>
      rw [heq] at hnotify
      simpa [or_imp, forall_and, Event.warn, Event.debug, silent_log] using hnotify
  · simp

/-- A method other than an exit: a notification does to the workspace what it asks for,
and nothing if it fails; with an id it is a request. -/
theorem dispatch_of_ne_exit {method : Json} (h : method ≠ .str "exit") (w : Workspace)
    (id params : Json) :
    (dispatch w method id params).status = .running ∧
      (dispatch w method id params).request =
        (if id = .null then none else some ⟨id, method, params⟩) ∧
      (dispatch w method id params).workspace =
        if id = .null then (Server.operation? method params).toOption.join.elim w (·.run w)
        else w := by
  unfold dispatch
  split
  · exact absurd rfl h
  · rw [if_pos rfl, if_pos rfl]
    unfold Server.notify
    cases Server.operation? method params with
    | error fault => exact ⟨rfl, rfl, rfl⟩
    | ok op =>
      cases op with
      | none => exact ⟨rfl, rfl, rfl⟩
      | some op =>
        simp only [Except.toOption, Option.join_some, Option.elim_some, Workspace.Operation.run]
        cases op.apply w <;> exact ⟨rfl, rfl, rfl⟩
  · next _ hnull => exact ⟨rfl, (if_neg hnull).symm, (if_neg hnull).symm⟩

/-- Logging changes the method of a message at most as an array takes an id. -/
theorem method_of_label {message method id logged shown : Json} {text : Str}
    (h : Message.label message method id = .ok (text, logged, shown)) :
    logged = queuedAs method id := by
  unfold Message.label at h
  split at h
  · obtain ⟨-, rfl, -⟩ := Except.ok.inj h
    rfl
  · obtain ⟨-, rfl, -⟩ := Except.ok.inj h
    cases id <;> rfl
  · obtain ⟨-, rfl, -⟩ := Except.ok.inj h
    cases id <;> rfl
  · next items hnull =>
    obtain ⟨-, rfl, -⟩ := Except.ok.inj h
    cases id with
    | null => exact absurd rfl hnull
    | _ => rfl
  · cases h

theorem method_of_logMessage {depth : Nat} {direction : String} {fields : List (Str × Json)}
    {method logged shown : Json} {event : Event}
    (h : Server.logMessage depth direction (.obj fields) method = .ok (event, logged, shown)) :
    event.Silent ∧ logged = queuedAs method (idOf (.obj fields)) := by
  obtain ⟨id, hid, h⟩ := exists_of_bind_ok h
  obtain rfl := Except.ok.inj hid
  obtain ⟨⟨text, method', shown'⟩, hlabel, h⟩ := exists_of_bind_ok h
  obtain ⟨written, -, h⟩ := exists_of_bind_ok h
  obtain ⟨rfl, rfl, rfl⟩ := Except.ok.inj h
  exact ⟨silent_log _, method_of_label hlabel⟩

theorem queuedAs_eq_exit_iff {method id : Json} :
    queuedAs method id = .str "exit" ↔ method = .str "exit" := by
  unfold queuedAs
  split
  · rfl
  · exact iff_of_false nofun nofun
  · rfl

/-- What a message leads to, as far as the message tells. -/
structure Told (depth : Nat) (w : Workspace) (message : Json) (r : Received) : Prop where
  silent : ∀ e ∈ r.events, e.Silent
  status : r.status = (ending? depth message).getD .running
  request : ending? depth message = none → r.request = request? message
  workspace : r.workspace =
    if ending? depth message = none then (notice? message).elim w (·.run w) else w

section

variable {fields : List (Str × Json)} (h : methodOf (.obj fields) ≠ .null) {depth : Nat}

include h

/-- A message with a method that cannot be logged ends the session. -/
theorem receive_unlogged {fault : Fault}
    (hlog : Server.logMessage depth "-->" (.obj fields) (methodOf (.obj fields)) = .error fault)
    (w : Workspace) :
    receive depth w (.obj fields) = ⟨[], w, none, .failed fault⟩ ∧
      ending? depth (.obj fields) = some (.failed fault) := by
  constructor
  · simp only [receive]
    split
    · next hnull => exact absurd hnull h
    · change Server.logMessage depth "-->" (.obj fields)
        ((Json.lookup "method" fields).getD .null) = _ at hlog
      rw [hlog]
  · simp only [ending?, if_neg h, hlog]

/-- A message with a method is dispatched by the method that was logged. -/
theorem receive_logged {event : Event} {method shown : Json}
    (hlog : Server.logMessage depth "-->" (.obj fields) (methodOf (.obj fields)) =
      .ok (event, method, shown)) (w : Workspace) :
    receive depth w (.obj fields) =
        { dispatch w method (idOf (.obj fields)) (paramsOf (.obj fields)) with
          events := event ::
            (dispatch w method (idOf (.obj fields)) (paramsOf (.obj fields))).events } ∧
      ending? depth (.obj fields) = if isExit (.obj fields) then some .ended else none := by
  constructor
  · simp only [receive]
    split
    · next hnull => exact absurd hnull h
    · change Server.logMessage depth "-->" (.obj fields)
        ((Json.lookup "method" fields).getD .null) = _ at hlog
      rw [hlog]
      rfl
  · simp only [ending?, if_neg h, hlog]

/-- A message with a method. -/
theorem told_of_method (depth : Nat) (w : Workspace) :
    Told depth w (.obj fields) (receive depth w (.obj fields)) := by
  cases hlog : Server.logMessage depth "-->" (.obj fields) (methodOf (.obj fields)) with
  | error fault =>
    obtain ⟨hreceive, hending⟩ := receive_unlogged h hlog w
    rw [hreceive]
    exact ⟨List.forall_mem_nil _, by rw [hending]; rfl,
      fun hnone => (by cases hending.symm.trans hnone), by rw [hending]; rfl⟩
  | ok logged =>
    obtain ⟨event, method, shown⟩ := logged
    obtain ⟨hreceive, hending⟩ := receive_logged h hlog w
    obtain ⟨hsilent, hmethod⟩ := method_of_logMessage hlog
    rw [hreceive]
    have hevents := List.forall_mem_cons.mpr
      ⟨hsilent, silent_dispatch w method (idOf (.obj fields)) (paramsOf (.obj fields))⟩
    by_cases hexit : methodOf (.obj fields) = .str "exit"
    · have hended : ending? depth (.obj fields) = some .ended := by
        rw [hending]
        exact if_pos (decide_eq_true hexit)
      obtain rfl : method = .str "exit" := hmethod.trans (queuedAs_eq_exit_iff.mpr hexit)
      exact ⟨hevents, by rw [hended]; rfl, fun hnone => (by cases hended.symm.trans hnone),
        by rw [hended]; rfl⟩
    · have hgoes : ending? depth (.obj fields) = none := by
        rw [hending]
        exact if_neg (by simpa [isExit] using hexit)
      have hne : method ≠ .str "exit" := fun heq =>
        hexit (queuedAs_eq_exit_iff.mp (hmethod.symm.trans heq))
      obtain ⟨hstatus, hrequest, hworkspace⟩ :=
        dispatch_of_ne_exit hne w (idOf (.obj fields)) (paramsOf (.obj fields))
      refine ⟨hevents, by rw [hgoes]; exact hstatus, fun _ => ?_, ?_⟩
      · refine hrequest.trans ?_
        rw [request?, hmethod]
        simp only [h, false_or]
      · rw [if_pos hgoes]
        refine hworkspace.trans ?_
        by_cases hid : idOf (.obj fields) = .null
        · rw [if_pos hid, notice?_of_no_id hid, hmethod, hid]
          cases methodOf (.obj fields) <;> rfl
        · rw [if_neg hid, notice?_of_id hid]
          rfl

end

/-- What a message does to the session can be told from the message alone. -/
theorem told (depth : Nat) (w : Workspace) (message : Json) :
    Told depth w message (receive depth w message) := by
  cases message with
  | obj fields =>
    by_cases hnull : methodOf (.obj fields) = .null
    · have hending : ending? depth (.obj fields) = none := if_pos hnull
      have hreceive :
          ∃ text, receive depth w (.obj fields) = ⟨[.warn text], w, none, .running⟩ := by
        have hlookup : (Json.lookup "method" fields).getD .null = .null := hnull
        simp only [receive, hlookup]
        exact ⟨_, rfl⟩
      have hnotice : notice? (.obj fields) = none := by
        rw [notice?, hnull]
      obtain ⟨text, hreceive⟩ := hreceive
      rw [hreceive]
      refine ⟨List.forall_mem_singleton.mpr (silent_log _), by rw [hending]; rfl, fun _ => ?_, ?_⟩
      · rw [request?, if_pos (.inl hnull)]
      · rw [if_pos hending, hnotice]
        rfl
    · exact told_of_method hnull depth w
  | _ =>
    refine ⟨by simp [receive, Event.info, silent_log], rfl, fun hnone => ?_, rfl⟩
    cases hnone

/-! ### Messages by name -/

/-- An object whose method is a text, or that has no method. -/
structure Addressed (message : Json) : Prop where
  object : ∃ fields, message = .obj fields
  method : methodOf message = .null ∨ (methodOf message).IsText

/-- Such a message ends the session if it is an exit, or if it cannot be logged. -/
theorem ending?_of_addressed {message : Json} (h : Addressed message) (depth : Nat) :
    ending? depth message =
      if methodOf message = .null then none
      else
        match message.obstacle? depth with
        | some fault => some (.failed fault)
        | none => if isExit message then some .ended else none := by
  obtain ⟨⟨fields, rfl⟩, hmethod⟩ := h
  by_cases hnull : methodOf (.obj fields) = .null
  · rw [if_pos hnull]
    exact if_pos hnull
  · obtain ⟨label, hlog⟩ :=
      Server.logMessage_of_isText (hmethod.resolve_left hnull) depth "-->" fields
    rw [if_neg hnull]
    refine (if_neg hnull).trans ?_
    rw [hlog, Json.written]
    cases (Json.obj fields).obstacle? depth <;> rfl

/-- If it is within the limits of the log, it is an exit or it does not end the session. -/
theorem ending?_of_within {message : Json} (h : Addressed message) {depth : Nat}
    (hwithin : message.Within depth) :
    ending? depth message = if isExit message then some .ended else none := by
  rw [ending?_of_addressed h, hwithin.obstacle?]
  by_cases hnull : methodOf message = .null
  · rw [if_pos hnull, if_neg (by simp [isExit, hnull])]
  · rw [if_neg hnull]

theorem queuedAs_of_isText {method : Json} (h : method.IsText) (id : Json) :
    queuedAs method id = method := by
  obtain ⟨text, rfl⟩ := h
  cases text <;> cases id <;> rfl

/-- A request by such a message is queued as it is. -/
theorem request?_of_addressed {message : Json} (h : Addressed message) :
    request? message =
      if methodOf message = .null ∨ idOf message = .null then none
      else some ⟨idOf message, methodOf message, paramsOf message⟩ := by
  rw [request?]
  split
  · rfl
  · next hboth =>
    rw [not_or] at hboth
    rw [queuedAs_of_isText (h.method.resolve_left hboth.1)]

end RenameServer.Session
