import RenameServer.Edit.Map
import RenameServer.Lookup
import RenameServer.Message
import RenameServer.Rename.Renamer
import RenameServer.Job

/-!
The two requests of renaming. Preparing gives the range that would be renamed.
Renaming draws all edits, groups them by document, and converts each group
against the document as it is at that moment; in each of these three phases it
pauses after every so many edits. A failed rename is no protocol error: the
client is shown the reason and gets an edit without changes.
-/
namespace RenameServer

/-- The changes of one document, for the version that it had. -/
structure DocumentChange where
  uri : Json
  version : Json
  edits : List PositionEdit
  deriving Repr

def DocumentChange.toJson (c : DocumentChange) : Json :=
  .obj [("textDocument", .obj [("uri", c.uri), ("version", c.version)]),
    ("edits", .arr (c.edits.map PositionEdit.toJson))]

structure WorkspaceEdit where
  changes : List DocumentChange
  deriving Repr

namespace WorkspaceEdit

def empty : WorkspaceEdit := ⟨[]⟩

def toJson (e : WorkspaceEdit) : Json :=
  .obj [("documentChanges", .arr (e.changes.map DocumentChange.toJson))]

end WorkspaceEdit

/-- A renamer at work: after `every` edits it pauses, and `send` reaches the client. -/
structure RenameService where
  renamer : Renamer
  every : Nat
  send : Json → Job Unit

/-- The phases of a rename. -/
inductive Phase where
  | drawing
  | grouping
  | converting
  deriving Repr, DecidableEq

/-- What carries out a rename: it performs jobs, and it hears of each edit that a phase
has handled, and how many these are by then. -/
structure Carrier (m : Type → Type) where
  perform : {α : Type} → Job α → m α
  handled : Phase → Nat → m Unit

namespace RenameService

/-- Edits between two pauses, unless told otherwise. -/
def defaultEvery : Nat := 10

/-- The number of edits between two pauses has to be positive. -/
def ofEvery (renamer : Renamer) (every : Int) (send : Json → Job Unit) :
    Except Fault RenameService :=
  if every < 1 then .error .badPause else .ok ⟨renamer, every.toNat, send⟩

/-- Pause when a multiple of `every` edits has been handled. -/
def tick (every count : Nat) : Job Unit :=
  if count % every = 0 then .pause (.done ()) else .done ()

/-- The version of an open document; zero for others. -/
def versionOf (w : Workspace) (uri : Json) : Except Fault Json := do
  if ← w.has uri then
    return (← w.get uri).version
  else return .int 0

/-- The document and the offset that a request is about. -/
def target (params : Json) : Job (Source × Nat) := do
  let uri ← Job.ofExcept do (← params.need "textDocument").need "uri"
  let document ← Job.locate uri
  let offset ← Job.ofExcept do
    (← Position.ofJson (← params.need "position")).offsetInText document.text
  let text ← Job.ofExcept (document.text.toText .text)
  return (⟨document.uri, text⟩, offset)

/-- The range that would be renamed, or null. -/
def prepare (service : RenameService) (params : Json) : Job Json := do
  let (source, offset) ← target params
  match service.renamer.range? source offset with
  | none =>
    Job.report (.debug ("Nothing to rename at " ++ source.uri.display ++ s!"@{offset}"))
    return .null
  | some range =>
    let range ← Job.ofExcept (PositionRange.ofBytes range source.text)
    return range.toJson

/-- Show the reason and change nothing. -/
def fail (service : RenameService) (failure : Failure) : Job WorkspaceEdit := do
  Job.report (.info (s!"Rename failed ({failure.kind.name}): " ++ failure.message))
  service.send (Message.showError failure.message)
  return .empty

end RenameService

namespace Carrier

variable {m : Type → Type} [Monad m] (c : Carrier m)

/-- Draw all edits of a stream, of which `edits` have been drawn before. The
first failure stops it. -/
def consume (edits : List LocatedEdit) : Stream Step → m (Except Failure (List LocatedEdit))
  | .done => pure (.ok edits)
  | .raise fault => c.perform (.raise fault)
  | .emit event rest => do
    c.perform (Job.report event)
    consume edits rest
  | .look rest => do
    let w ← c.perform (.look .done)
    consume edits (rest w)
  | .item (.failure failure) _ => pure (.error failure)
  | .item (.edit e) rest => do
    c.perform (Job.report
      (.trace ("Edit " ++ e.uri.display ++ s!" {e.range.start}..{e.range.stop}")))
    c.handled .drawing (edits.length + 1)
    consume (edits ++ [e]) rest

/-- Group edits by document, `count` of them being grouped already. -/
def group (map : EditMap) (count : Nat) : List LocatedEdit → m (Except Failure EditMap)
  | [] => pure (.ok map)
  | e :: rest =>
    match map.add e with
    | .error conflict => pure (.error ⟨conflict.message, .conflictingEdits⟩)
    | .ok next => do
      c.handled .grouping (count + 1)
      group next (count + 1) rest

/-- Convert the edits of one document, `count` having been converted before. -/
def convertEdits (lookup : Lookup) (count : Nat) : List TextEdit → m (List PositionEdit)
  | [] => pure []
  | e :: rest => do
    let (edit, next) ← c.perform (Job.ofExcept (lookup.edit e))
    c.handled .converting (count + 1)
    return edit :: (← convertEdits next (count + 1) rest)

/-- Convert groups of edits. The version is looked up after the edits of its
document are converted. -/
def convert (count : Nat) : List EditGroup → m (List DocumentChange)
  | [] => pure []
  | g :: rest => do
    let document ← c.perform (Job.locate g.uri)
    let text ← c.perform (Job.ofExcept (document.text.toText (.member "encode")))
    let edits ← c.convertEdits (Lookup.ofText text) count g.edits
    let version ← c.perform (.look fun w => Job.ofExcept (RenameService.versionOf w g.uri))
    return ⟨g.uri, version, edits⟩ :: (← convert (count + g.edits.length) rest)

/-- The edits of a rename, by document. -/
def rename (service : RenameService) (params : Json) : m WorkspaceEdit := do
  let (source, offset) ← c.perform (RenameService.target params)
  let newName ← c.perform (Job.ofExcept (params.need "newName"))
  match ← c.consume [] (service.renamer.steps source offset newName) with
  | .error failure => c.perform (service.fail failure)
  | .ok edits =>
    match ← c.group .empty 0 edits with
    | .error failure => c.perform (service.fail failure)
    | .ok map =>
      c.perform (Job.report
        (.debug s!"Rename produced {map.editCount} edits in {map.size} documents"))
      return ⟨← c.convert 0 map.groups⟩

end Carrier

namespace RenameService

/-- A rename is carried out by a job that pauses after every so many edits. -/
def pausing (every : Nat) : Carrier Job := ⟨id, fun _ count => tick every count⟩

def rename (service : RenameService) (params : Json) : Job WorkspaceEdit :=
  (pausing service.every).rename service params

section

variable (every : Nat)

theorem consume_emit (edits : List LocatedEdit) (event : Event) (rest : Stream Step) :
    (pausing every).consume edits (.emit event rest) =
      .emit event ((pausing every).consume edits rest) := rfl

theorem consume_edit (edits : List LocatedEdit) (e : LocatedEdit) (rest : Stream Step) :
    (pausing every).consume edits (.item (.edit e) rest) =
      .emit (.trace ("Edit " ++ e.uri.display ++ s!" {e.range.start}..{e.range.stop}"))
        ((tick every (edits.length + 1)).bind fun _ =>
          (pausing every).consume (edits ++ [e]) rest) := rfl

theorem group_cons (map : EditMap) (count : Nat) (e : LocatedEdit) (rest : List LocatedEdit) :
    (pausing every).group map count (e :: rest) =
      match map.add e with
      | .error conflict => .done (.error ⟨conflict.message, .conflictingEdits⟩)
      | .ok next => (tick every (count + 1)).bind fun _ =>
          (pausing every).group next (count + 1) rest := rfl

theorem convertEdits_cons (lookup : Lookup) (count : Nat) (e : TextEdit) (rest : List TextEdit) :
    (pausing every).convertEdits lookup count (e :: rest) = (do
      let (edit, next) ← Job.ofExcept (lookup.edit e)
      tick every (count + 1)
      return edit :: (← (pausing every).convertEdits next (count + 1) rest)) := rfl

theorem convert_cons (count : Nat) (g : EditGroup) (rest : List EditGroup) :
    (pausing every).convert count (g :: rest) = (do
      let document ← Job.locate g.uri
      let text ← Job.ofExcept (document.text.toText (.member "encode"))
      let edits ← (pausing every).convertEdits (Lookup.ofText text) count g.edits
      let version ← Job.look fun w => Job.ofExcept (versionOf w g.uri)
      return ⟨g.uri, version, edits⟩ ::
        (← (pausing every).convert (count + g.edits.length) rest)) := rfl

end

theorem rename_eq (service : RenameService) (params : Json) :
    service.rename params = (do
      let (source, offset) ← target params
      let newName ← Job.ofExcept (params.need "newName")
      match ← (pausing service.every).consume []
        (service.renamer.steps source offset newName) with
      | .error failure => service.fail failure
      | .ok edits =>
        match ← (pausing service.every).group .empty 0 edits with
        | .error failure => service.fail failure
        | .ok map =>
          Job.report (.debug s!"Rename produced {map.editCount} edits in {map.size} documents")
          return ⟨← (pausing service.every).convert 0 map.groups⟩) := rfl

end RenameService

end RenameServer
