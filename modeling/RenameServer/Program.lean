import RenameServer.Options
import RenameServer.Preset
import RenameServer.Rename.Chain
import RenameServer.Session

/-!
The program as a whole: from a command line and the input to what it writes and
its exit code. Nothing is logged before the options are known to be good. A
fault ends the program with an entry in the log; when not even that entry can be
written, the run has no result.
-/
namespace RenameServer.Program

open Utf8 (Bytes)

/-- A server with the renamers of a preset, and what the log says about it. -/
def assemble (places : Preset.Places) (catalogue : Preset.Catalogue) (preset : String)
    (every : Int) (connected : Bool) (fails : Event → Bool) (host : Host) :
    Except Fault (Server × List Event) := do
  let renamers ← Preset.load places catalogue preset
  let server ← Server.ofRenamer (Chain.renamer renamers) every connected fails host
  let announced : List Event :=
    [Preset.announce preset renamers, .info s!"Renamers: {Preset.names renamers}"]
  if announced.any fails then throw Server.unwritable
  return (server, announced)

/-- Feed pieces of input to a session, one after the other. -/
def converse (server : Server) (disk : Job.Disk) (session : Session) :
    List (Bytes × Bool) → Session × List Event
  | [] => (session, [])
  | (bytes, closed) :: rest =>
    let (next, events) := session.feed server disk bytes closed
    let (last, more) := converse server disk next rest
    (last, events ++ more)

def fatal (fault : Fault) : Event := .info ("Fatal error: " ++ fault.message)

/-- The last words of the program, and its exit code. -/
def farewell (fails : Event → Bool) (status : Status) : Except Fault (List Event × Nat) :=
  let exiting := Event.info "Exiting"
  let fault? := match status with
    | .failed fault => some fault
    | _ => if fails exiting then some Server.unwritable else none
  match fault? with
  | none => .ok ([exiting], 0)
  | some fault => if fails (fatal fault) then .error Server.unwritable else .ok ([fatal fault], 1)

/-- Log settings before the command line is read. -/
def initialSettings : Log.Settings := ⟨.info, some 4000⟩

/-- Which events are log entries that should be written and cannot be. -/
def failing (settings : Log.Settings) (event : Event) : Bool :=
  event.entry?.any settings.fails

/-- How a run ends: the exit code, what was written besides the log, the log
settings, and everything that happened. -/
structure Outcome where
  exitCode : Nat
  stdout : String
  stderr : String
  settings : Log.Settings
  events : List Event

def Outcome.ofRefusal (r : Options.Refusal) : Outcome :=
  ⟨r.exitCode, r.stdout, r.stderr, initialSettings, []⟩

/-- Run with good options. -/
def serve (places : Preset.Places) (catalogue : Preset.Catalogue) (disk : Job.Disk) (host : Host)
    (preset : String) (every : Int) (settings : Log.Settings) (input : List (Bytes × Bool)) :
    Except Fault Outcome := do
  let fails := failing settings
  let (status, events) := match assemble places catalogue preset every true fails host with
    | .error fault => (.failed fault, [])
    | .ok (server, announced) =>
      let (session, events) := converse server disk .initial input
      (session.status, announced ++ events)
  let (last, exitCode) ← farewell fails status
  return ⟨exitCode, "", "", settings, events ++ last⟩

/-- Run the program on a command line and pieces of input. -/
def run (places : Preset.Places) (catalogue : Preset.Catalogue) (disk : Job.Disk) (host : Host)
    (argv : List String) (input : List (Bytes × Bool)) : Except Fault Outcome :=
  match Options.parse argv with
  | .error refusal => .ok (.ofRefusal refusal)
  | .ok options => do
    match ← options.validate with
    | .error refusal => return .ofRefusal refusal
    | .ok (every, settings) =>
      serve places catalogue disk host options.presetName every settings input

/-- The bytes that go to the client. -/
def Outcome.sentBytes (host : Host) (o : Outcome) : Bytes :=
  (o.events.filterMap Event.message?).flatMap fun message =>
    (Frame.encode host.writing message).toOption.getD []

end RenameServer.Program
