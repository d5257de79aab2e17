import RenameServer.Frame
import RenameServer.Message

/-!
The client's end of a conversation. It numbers its requests, and waits for a
response or a notification by reading what comes; notifications that come while
it waits for a response are kept.
-/
namespace RenameServer

structure Endpoint where
  nextId : Int
  kept : List Json
  incoming : List Json
  written : List Json
  closed : Bool
  deriving Repr

namespace Endpoint

/-- An endpoint that will receive the given messages, and then nothing more. -/
def ofIncoming (messages : List Json) : Endpoint := ⟨1, [], messages, [], false⟩

def write (e : Endpoint) (message : Json) : Endpoint := { e with written := e.written ++ [message] }

def notify (e : Endpoint) (method params : Json) : Endpoint :=
  e.write (Message.notification method params)

/-- Send a request, and give its id. -/
def request (e : Endpoint) (method params : Json) : Int × Endpoint :=
  let fields : List (Str × Json) :=
    [("jsonrpc", .str "2.0"), ("id", .int e.nextId), ("method", method)]
  let message := match params with
    | .null => Json.obj fields
    | params => Json.obj (fields ++ [(.plain "params", params)])
  (e.nextId, { e with nextId := e.nextId + 1 }.write message)

/-- What waiting has led to: messages to keep, what was waited for if it came,
and the messages that are left. -/
structure Wait where
  kept : List Json
  found : Except Fault (Option Json)
  left : List Json

/-- Read messages until the response with an id comes. -/
def awaitResponse (id : Json) : List Json → Wait
  | [] => ⟨[], .ok none, []⟩
  | message :: rest =>
    if !message.isGiven then ⟨[], .ok none, rest⟩
    else
      match message.mentions "id" with
      | .error fault => ⟨[], .error fault, rest⟩
      | .ok false =>
        let more := awaitResponse id rest
        { more with kept := message :: more.kept }
      | .ok true =>
        match message.need "id" with
        | .error fault => ⟨[], .error fault, rest⟩
        | .ok other =>
          if other.same id then ⟨[], .ok (some message), rest⟩ else awaitResponse id rest

def readResponse (e : Endpoint) (id : Json) : Except Fault Json × Endpoint :=
  let wait := awaitResponse id e.incoming
  let next := { e with kept := e.kept ++ wait.kept, incoming := wait.left }
  match wait.found with
  | .error fault => (.error fault, next)
  | .ok (some message) => (.ok message, next)
  | .ok none => (.error (.noResponse id), next)

def hasMethod (method message : Json) : Except Fault Bool := do
  return (← message.getOr "method" .null).same method

/-- Is a message a notification with a method? -/
def isNotification (method message : Json) : Except Fault Bool := do
  if ← message.mentions "id" then return false
  hasMethod method message

/-- Read messages until a notification with a method comes. -/
def awaitNotification (method : Json) : List Json → Wait
  | [] => ⟨[], .ok none, []⟩
  | message :: rest =>
    if !message.isGiven then ⟨[], .ok none, rest⟩
    else
      match isNotification method message with
      | .error fault => ⟨[], .error fault, rest⟩
      | .ok true => ⟨[], .ok (some message), rest⟩
      | .ok false => awaitNotification method rest

/-- Take the first kept message with a method: the message and those that stay. -/
def takeKept (method : Json) : List Json → Except Fault (Option (Json × List Json))
  | [] => .ok none
  | message :: rest => do
    if ← hasMethod method message then return some (message, rest)
    return (← takeKept method rest).map fun (found, others) => (found, message :: others)

/-- The parameters of the next notification with a method, kept ones first. -/
def readNotification (e : Endpoint) (method : Json) : Except Fault Json × Endpoint :=
  match takeKept method e.kept with
  | .error fault => (.error fault, e)
  | .ok (some (message, others)) => (message.need "params", { e with kept := others })
  | .ok none =>
    let wait := awaitNotification method e.incoming
    let next := { e with incoming := wait.left }
    match wait.found with
    | .error fault => (.error fault, next)
    | .ok (some message) => (message.need "params", next)
    | .ok none => (.error (.noNotification method), next)

/-- Send a request and wait for its result. -/
def call (e : Endpoint) (method params : Json) : Except Fault Json × Endpoint :=
  let (id, e) := e.request method params
  match e.readResponse (.int id) with
  | (.error fault, e) => (.error fault, e)
  | (.ok response, e) =>
    match response.field? "error" with
    | some error => (.error (.callFailed method error), e)
    | none => (response.need "result", e)

/-- Introduce the client, and give what the server says about itself. -/
def greet (e : Endpoint) : Except Fault Json × Endpoint :=
  match e.call (.str "initialize") (.obj [("rootUri", .null), ("capabilities", .obj [])]) with
  | (.ok result, e) => (.ok result, e.notify (.str "initialized") (.obj []))
  | failed => failed

def openDocument (e : Endpoint) (uri text version : Json) : Endpoint :=
  e.notify (.str "textDocument/didOpen")
    (.obj [("textDocument", .obj [("uri", uri), ("languageId", .str "php"), ("version", version),
      ("text", text)])])

/-- Ask the server to stop, and close. -/
def shutdown (e : Endpoint) : Except Fault Json × Endpoint :=
  match e.call (.str "shutdown") .null with
  | (.ok _, e) => (.ok .null, { e.notify (.str "exit") (.obj []) with closed := true })
  | failed => failed

end Endpoint

end RenameServer
