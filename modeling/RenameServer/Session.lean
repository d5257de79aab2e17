import RenameServer.Server

/-!
A session with one client. Bytes arrive in pieces. Of each piece all complete
messages are read before anything else runs: notifications take effect at once,
requests are queued. Then the queued requests run together, in rounds, until all
are answered. The session ends with an exit notification or with the input; it
fails on bytes that are no message, on a log entry that cannot be written, and
at its end when the job of a request has failed. When it has failed, requests
that are still running are cut off.
-/
namespace RenameServer

open Utf8 (Bytes)

inductive Status where
  | running
  | ended
  | failed (fault : Fault)
  deriving Repr

structure Session where
  workspace : Workspace
  shuttingDown : Bool
  buffer : Bytes
  status : Status
  deriving Repr

/-- A request that waits to be run. -/
structure Request where
  id : Json
  method : Json
  params : Json
  deriving Repr

namespace Session

def initial : Session := ⟨.empty, false, [], .running⟩

/-- What one message leads to. -/
structure Received where
  events : List Event
  workspace : Workspace
  request : Option Request
  status : Status

/-- Handle a message that has a method. -/
def dispatch (w : Workspace) (method id params : Json) : Received :=
  match method, id with
  | .str "exit", _ => ⟨[], w, none, .ended⟩
  | method, .null =>
    match Server.notify w method params with
    | (events, .ok next) => ⟨events, next, none, .running⟩
    | (events, .error fault) =>
      ⟨events ++ [.warn ("Error handling " ++ method.display ++ ": " ++ fault.message),
        .debug Server.faultTrace], w, none, .running⟩
  | method, id => ⟨[], w, some ⟨id, method, params⟩, .running⟩

/-- Handle one message, nested at most `depth` times. A message without a method is a
response to nothing. -/
def receive (depth : Nat) (w : Workspace) (message : Json) : Received :=
  match message with
  | .obj fields =>
    let method := (Json.lookup "method" fields).getD .null
    let id := (Json.lookup "id" fields).getD .null
    match method with
    | .null =>
      ⟨[.warn ("Unexpected response from client with id=" ++ id.display)], w, none, .running⟩
    | method =>
      match Server.logMessage depth "-->" message method with
      | .error fault => ⟨[], w, none, .failed fault⟩
      | .ok (event, method, _) =>
        let given := (Json.lookup "params" fields).getD .null
        let r := dispatch w method id (if given.isGiven then given else .obj [])
        { r with events := event :: r.events }
  | .null => ⟨[.info "Client closed the connection"], w, none, .ended⟩
  | other => ⟨[], w, none, .failed (.wrongKind (.member "get") other.kind)⟩

/-- Handle one message, and fail if it leads to a log entry that fails. -/
def receiveLogged (server : Server) (w : Workspace) (message : Json) : Received :=
  let r := receive server.host.noting w message
  if r.events.any server.fails then
    ⟨r.events.takeWhile fun e => !server.fails e, r.workspace, none, .failed Server.unwritable⟩
  else r

/-- What reading a piece of input leads to. -/
structure Intake where
  events : List Event
  session : Session
  requests : List Request

/-- The end of the input is an entry of the log too. -/
def endOfInput (server : Server) : List Event × Status :=
  let event := Event.info "Client closed the connection"
  if server.fails event then ([], .failed Server.unwritable) else ([event], .ended)

/-- Read all complete messages in the buffer. -/
def readAll (server : Server) (closed : Bool) (w : Workspace) (shuttingDown : Bool)
    (buffer : Bytes) : Intake :=
  match _h : Frame.read server.host.reading closed buffer with
  | .waiting => ⟨[], ⟨w, shuttingDown, buffer, .running⟩, []⟩
  | .none rest =>
    let (events, status) := endOfInput server
    ⟨events, ⟨w, shuttingDown, rest, status⟩, []⟩
  | .fault fault rest => ⟨[], ⟨w, shuttingDown, rest, .failed fault⟩, []⟩
  | .message value rest =>
    let r := receiveLogged server w value
    match r.status with
    | .running =>
      let more := readAll server closed r.workspace shuttingDown rest
      ⟨r.events ++ more.events, more.session, r.request.toList ++ more.requests⟩
    | status => ⟨r.events, ⟨r.workspace, shuttingDown, rest, status⟩, []⟩
termination_by buffer.length
decreasing_by exact Frame.read_rest_lt _h

/-- The jobs of requests, in order. Each is chosen as its predecessors leave the server. -/
def jobs (server : Server) (shuttingDown : Bool) : List Request → List (Job Unit) × Bool
  | [] => ([], shuttingDown)
  | r :: rest =>
    let more := jobs server (Server.shutsDown shuttingDown r.method) rest
    let job := server.answer shuttingDown r.id r.method r.params
    (job.stopAt server.fails Server.unwritable :: more.1, more.2)

/-- What a piece of input leads to before any request runs. -/
structure Accepted where
  session : Session
  events : List Event
  jobs : List (Job Unit)

/-- Take in a piece of input. After the end, nothing is taken in any more. -/
def accept (server : Server) (session : Session) (bytes : Bytes) (closed : Bool) : Accepted :=
  match session.status with
  | .running =>
    let intake :=
      readAll server closed session.workspace session.shuttingDown (session.buffer ++ bytes)
    let (started, shuttingDown) := jobs server session.shuttingDown intake.requests
    ⟨{ intake.session with shuttingDown }, intake.events, started⟩
  | _ => ⟨session, [], []⟩

/-- The session once its requests have run. A fault that ended one of them only
matters if the session waited for it in order to end. -/
def settle (session : Session) : Option Fault → Session
  | none => session
  | some fault =>
    match session.status with
    | .ended => { session with status := .failed fault }
    | _ => session

/-- After how many rounds jobs are cut off, if they are. In a session that has failed
they are cut off soon, in one that waits for them soon after the first failure. -/
def patience (host : Host) (status : Status) (failure : Option Nat) : Option Nat :=
  match status, failure with
  | .failed _, _ => some host.grace
  | .ended, some round => some (round + 1 + host.notice + host.grace)
  | _, _ => none

/-- Take in a piece of input, and run what it asks for. -/
def feed (server : Server) (disk : Job.Disk) (session : Session) (bytes : Bytes) (closed : Bool) :
    Session × List Event :=
  let accepted := accept server session bytes closed
  let (events, fault) := Job.together disk accepted.session.workspace
    (patience server.host accepted.session.status) accepted.jobs
  (accepted.session.settle fault, accepted.events ++ events)

end Session

end RenameServer
