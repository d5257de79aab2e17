import RenameServer.Program
import Std.Time.DateTime.Timestamp

/-!
The program itself: it reads messages from standard input, one after the other,
answers on standard output and logs on standard error. Everything it decides is
decided elsewhere; here it only reads, writes and looks at the clock. What the
file of a user's preset defines is up to whoever starts it.
-/
namespace RenameServer.Main

open Utf8 (Bytes)

/-- The time of day, in universal time. -/
def timeOfDay : IO Log.Time := do
  let now ← Std.Time.Timestamp.now
  let micros := now.toNanosecondsSinceUnixEpoch.val.toNat / 1000
  let seconds := micros / 1000000
  return ⟨seconds / 3600 % 24, seconds / 60 % 60, seconds % 60, micros % 1000000⟩

/-- How deep values may be nested here, and how soon a failed session stops. -/
def host : Host :=
  { reading := 980, noting := 980, logging := 980, writing := 980, grace := 1, notice := 2 }

/-- Write what an event puts on the log or sends to the client. -/
def perform (settings : Log.Settings) (event : Event) : IO Unit := do
  if let some entry := event.entry? then
    if let some line := Log.line? settings (← timeOfDay) entry then IO.eprintln (Text.escaped line)
  if let some message := event.message? then
    if let .ok frame := Frame.encode host.writing message then
      let stdout ← IO.getStdout
      stdout.write frame.toByteArray
      stdout.flush

/-- What a path leads to. -/
def look (path : String) : IO FileEntry := do
  match ← (IO.FS.readBinFile path).toBaseIO with
  | .ok bytes => return .file bytes.toList
  | .error (.noFileOrDirectory ..) => return .absent
  | .error _ => return .directory

/-- Run a job up to its next pause: what is left of it if it is not finished, or
the fault that ended it. -/
def slice (settings : Log.Settings) (w : Workspace) :
    Job Unit → IO (Except Fault (Option (Job Unit)))
  | .done _ => return .ok none
  | .raise fault => return .error fault
  | .emit event next => do
    perform settings event
    slice settings w next
  | .look next => slice settings w (next w)
  | .read path next => do
    let entry ← look path
    slice settings w (next entry)
  | .pause next => return .ok (some next)

/-- Run jobs in rounds, of which `round` are over, until all are finished or cut off,
and give the first failure. -/
partial def finish (settings : Log.Settings) (session : Session) (round : Nat)
    (failure : Option (Nat × Fault)) : List (Job Unit) → IO (Option (Nat × Fault))
  | [] => return failure
  | jobs => do
    if (Session.patience host session.status (failure.map Prod.fst)).any (· ≤ round) then
      return failure
    let results ← jobs.mapM (slice settings session.workspace)
    let faults := results.filterMap fun
      | .error f => some f
      | .ok _ => none
    let rest := results.filterMap fun
      | .ok next => next
      | .error _ => none
    finish settings session (round + 1) (failure <|> faults.head?.map (round, ·)) rest

/-- Read and answer until the session is over. -/
partial def converse (settings : Log.Settings) (server : Server) (session : Session) :
    IO Status := do
  match session.status with
  | .running =>
    let bytes ← (← IO.getStdin).read (Frame.wanted session.buffer).toUSize
    let accepted := session.accept server bytes.toList bytes.isEmpty
    accepted.events.forM (perform settings)
    let failure ← finish settings accepted.session 0 none accepted.jobs
    converse settings server (accepted.session.settle (failure.map Prod.snd))
  | status => return status

/-- The files that decide what a preset is; `defines` says what a file defines. -/
def readCatalogue (defines : Bytes → Option (List Renamer)) (places : Preset.Places)
    (name : String) : IO Preset.Catalogue := do
  let entries ← (Preset.searched places name).mapM fun path => do
    match ← look path with
    | .file bytes => return (path, FileTree.Entry.file (defines bytes))
    | .directory => return (path, .directory)
    | .absent => return (path, .absent)
  return fun path => (entries.lookup path).getD .absent

def serve (defines : Bytes → Option (List Renamer)) (preset : String) (every : Int)
    (settings : Log.Settings) : IO Nat := do
  let places : Preset.Places :=
    ⟨(← IO.getEnv "HOME").getD "/", ← IO.getEnv "XDG_CONFIG_HOME", "presets"⟩
  let catalogue ← readCatalogue defines places preset
  let fails := Program.failing settings
  let status ← match Program.assemble places catalogue preset every true fails host with
    | .error fault => pure (.failed fault)
    | .ok (server, announced) => do
      announced.forM (perform settings)
      converse settings server .initial
  match Program.farewell fails status with
  | .ok (last, exitCode) =>
    last.forM (perform settings)
    return exitCode
  | .error fault =>
    IO.eprintln (Text.escaped fault.message)
    return 1

def refuse (refusal : Options.Refusal) : IO Nat := do
  IO.print refusal.stdout
  IO.eprint refusal.stderr
  return refusal.exitCode

def run (defines : Bytes → Option (List Renamer)) (argv : List String) : IO Nat := do
  match Options.parse argv with
  | .error refusal => refuse refusal
  | .ok options =>
    match options.validate with
    | .error fault =>
      IO.eprintln (Text.escaped fault.message)
      return 1
    | .ok (.error refusal) => refuse refusal
    | .ok (.ok (every, settings)) => serve defines options.presetName every settings

end RenameServer.Main

/-- Run the program with its arguments, and give its exit code. Files of a user's own
define nothing. -/
def main (argv : List String) : IO UInt32 :=
  return (← RenameServer.Main.run (fun _ => none) argv).toUInt32
