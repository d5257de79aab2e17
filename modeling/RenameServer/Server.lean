import RenameServer.Frame
import RenameServer.Host
import RenameServer.Rename.Service

/-!
Requests and notifications. A request is answered by a job of its own, which is
chosen when the job starts; after a shutdown request only `initialize` and
`shutdown` are served. Notifications keep the workspace in step with the client.
A message that cannot be written is a fault of whoever sends it.
-/
namespace RenameServer

/-- The server's parts: a rename service, whether a client is connected, which
events are log entries that should be written and cannot be, and what the machine
allows. -/
structure Server where
  service : RenameService
  connected : Bool
  fails : Event → Bool
  host : Host

namespace Server

def name : String := "lsprename"
def version : String := "0.1.0"

/-- What the log shows in place of the place where a fault arose. -/
def faultTrace : String := "<traceback>"

/-- Log a message that goes to or comes from the client, nested at most `depth`
times: the entry, and method and message as they are afterwards. -/
def logMessage (depth : Nat) (direction : String) (message method : Json) :
    Except Fault (Event × Json × Json) := do
  let id ← message.getOr "id" .null
  let (label, method, message) ← Message.label message method id
  let text ← message.written depth
  return (.note (direction ++ " " ++ label ++ " " ++ text), method, message)

/-- Send a message to the client. It is logged before it is encoded. -/
def send (host : Host) (connected : Bool) (message : Json) : Job Unit :=
  if connected then do
    let method ← Job.ofExcept (message.getOr "method" .null)
    let (event, _, message) ← Job.ofExcept
      (logMessage host.logging "<--" message (if method.isGiven then method else .str "response"))
    Job.report event
    let _ ← Job.ofExcept (Frame.encode host.writing message)
    Job.report (.sent message)
  else .raise .notConnected

/-- The fault of a log entry that cannot be written. -/
def unwritable : Fault := .wrongKind (.order "<=") .arr

/-- A server over a renamer. -/
def ofRenamer (renamer : Renamer) (every : Int) (connected : Bool) (fails : Event → Bool)
    (host : Host) : Except Fault Server := do
  return ⟨← RenameService.ofEvery renamer every (send host connected), connected, fails, host⟩

/-- Send a message to the client of a server. -/
def tell (server : Server) (message : Json) : Job Unit :=
  send server.host server.connected message

def capabilities : Json :=
  .obj [("textDocumentSync", .obj [("openClose", .bool true), ("change", .int 1)]),
    ("renameProvider", .obj [("prepareProvider", .bool true)])]

def initializeResult : Json :=
  .obj [("capabilities", capabilities),
    ("serverInfo", .obj [("name", .str name), ("version", .str version)])]

/-- The handler of a method. -/
def handler? (server : Server) (method : String) : Option (Json → Job Json) :=
  if method = "textDocument/prepareRename" then some server.service.prepare
  else if method = "textDocument/rename" then
    some fun params => do return (← server.service.rename params).toJson
  else none

/-- Run a handler and answer with its result or its fault. -/
def serve (server : Server) (id : Json) (method : String) (job : Job Json) : Job Unit := do
  match ← job.attempt with
  | .ok result => server.tell (Message.response id result)
  | .error fault =>
    Job.report
      (.warn ("Request " ++ method ++ "[" ++ id.display ++ "] failed: " ++ fault.message))
    Job.report (.debug faultTrace)
    server.tell (Message.error id (.int Message.internalError) (.ofStr fault.message))

/-- The job that answers a request after a shutdown. -/
def refuseRequest (server : Server) (id : Json) : Job Unit :=
  server.tell (Message.error id (.int Message.invalidRequest) (.str "Server is shutting down"))

/-- The job that answers a request whose method is not known. -/
def answerUnknown (server : Server) (id method : Json) : Job Unit := do
  Job.report (.debug ("No handler for " ++ method.display))
  server.tell (Message.error id (.int Message.methodNotFound)
    (.ofStr ("Unhandled method " ++ method.display)))

/-- The job that answers a request. A method that cannot be looked up is a fault. -/
def answer (server : Server) (shuttingDown : Bool) (id method params : Json) : Job Unit :=
  match method with
  | .str "initialize" => server.tell (Message.response id initializeResult)
  | .str "shutdown" => server.tell (Message.response id .null)
  | method =>
    if shuttingDown then server.refuseRequest id
    else
      match method with
      | .arr _ | .obj _ => .raise (.wrongKind .key method.kind)
      | .str name =>
        match server.handler? name with
        | none => server.answerUnknown id method
        | some handler => server.serve id name (handler params)
      | _ => server.answerUnknown id method

/-- Is the server shutting down once a request has started? -/
def shutsDown (shuttingDown : Bool) (method : Json) : Bool :=
  shuttingDown || method.same (.str "shutdown")

/-- What a notification asks of the workspace, if it is about documents. -/
def operation? (method params : Json) : Except Fault (Option Workspace.Operation) := do
  let document ← params.getOr "textDocument" (.obj [])
  let uri ← document.getOr "uri" .null
  match method with
  | .str "textDocument/didOpen" =>
    let text ← document.getOr "text" (.str "")
    let version ← document.getOr "version" (.int 0)
    let languageId ← document.getOr "languageId" (.str "")
    return some (.openDocument ⟨uri, text, languageId, version⟩)
  | .str "textDocument/didChange" =>
    let changes ← params.getOr "contentChanges" (.arr [])
    let version ← document.getOr "version" (.int 0)
    return some (.change uri changes version)
  | .str "textDocument/didClose" => return some (.closeDocument uri)
  | _ => return none

/-- Handle a notification: what the log says, and the workspace after it. -/
def notify (w : Workspace) (method params : Json) : List Event × Except Fault Workspace :=
  match operation? method params with
  | .error fault => ([], .error fault)
  | .ok none => ([.debug ("Ignoring notification " ++ method.display)], .ok w)
  | .ok (some op) => (op.announce, op.apply w)

end Server

end RenameServer
