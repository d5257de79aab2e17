import RenameServer.Json.Basic
import RenameServer.Log

/-!
What can be observed of a running computation, in the order in which it happens.
-/
namespace RenameServer

inductive Event where
  /-- A log entry. -/
  | log (entry : Log.Entry)
  /-- A message to the client. -/
  | sent (message : Json)
  /-- The stream of an observed renamer was started. -/
  | started (renamer : Nat)
  /-- A step was drawn from the stream of an observed renamer. -/
  | drawn (renamer : Nat)
  /-- The computation let others run. -/
  | paused
  deriving Repr

namespace Event

def warn (text : Str) : Event := .log ⟨.warn, text⟩
def info (text : Str) : Event := .log ⟨.info, text⟩
def note (text : Str) : Event := .log ⟨.event, text⟩
def debug (text : Str) : Event := .log ⟨.debug, text⟩
def trace (text : Str) : Event := .log ⟨.trace, text⟩

def entry? : Event → Option Log.Entry
  | .log entry => some entry
  | _ => none

def message? : Event → Option Json
  | .sent message => some message
  | _ => none

end Event

end RenameServer
