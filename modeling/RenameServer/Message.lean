import RenameServer.Json.Access

/-!
The messages of the protocol: responses, error responses and notifications, and
the codes that errors carry.
-/
namespace RenameServer.Message

def invalidRequest : Int := -32600
def methodNotFound : Int := -32601
def internalError : Int := -32603

def response (id result : Json) : Json :=
  .obj [("jsonrpc", .str "2.0"), ("id", id), ("result", result)]

def error (id code message : Json) : Json :=
  .obj [("jsonrpc", .str "2.0"), ("id", id),
    ("error", .obj [("code", code), ("message", message)])]

def notification (method params : Json) : Json :=
  .obj [("jsonrpc", .str "2.0"), ("method", method), ("params", params)]

/-- The type of a message shown as an error. -/
def errorType : Int := 1

/-- Ask the client to show an error. -/
def showError (text : Str) : Json :=
  notification (.str "window/showMessage")
    (.obj [("type", .int errorType), ("message", .ofStr text)])

/-- What the log calls a message: its method, and its id if it has one. Only a
method that is a string can take an id; an array takes its code points as items
of its own, and the message shows that. -/
def label (message method id : Json) : Except Fault (Str × Json × Json) :=
  match id, method with
  | .null, _ => .ok (method.display, method, message)
  | id, .str _ | id, .ragged _ => .ok (method.display ++ "[" ++ id.display ++ "]", method, message)
  | id, .arr items =>
    let longer := Json.arr (items ++ ("[" ++ id.display ++ "]").points.map Json.ofPoint)
    .ok (longer.display, longer, message.withField "method" longer)
  | _, other => .error (.wrongKind .label other.kind)

end RenameServer.Message
