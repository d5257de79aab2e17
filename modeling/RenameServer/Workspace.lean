import RenameServer.Document
import RenameServer.Event
import RenameServer.Json.Key

/-!
The documents that the client has open, in the order in which they were opened.
Opening an open document again replaces it in its place. Changes are applied in
order, each to the result of the one before, and only a list of changes that
goes through replaces the document.
-/
namespace RenameServer

structure Workspace where
  documents : List Document
  deriving Repr

namespace Workspace

def empty : Workspace := ⟨[]⟩

def size (w : Workspace) : Nat := w.documents.length

def find? (w : Workspace) (uri : Json) : Option Document :=
  w.documents.find? fun d => d.uri.sameKey uri

/-- Is the document open? -/
def has (w : Workspace) (uri : Json) : Except Fault Bool := do
  let key ← uri.asKey
  return (w.find? key).isSome

def get (w : Workspace) (uri : Json) : Except Fault Document := do
  let key ← uri.asKey
  match w.find? key with
  | some d => return d
  | none => throw (.documentNotFound uri)

/-- Replace the document with the same URI in its place, or add one at the end. -/
def insert (d : Document) : List Document → List Document
  | [] => [d]
  | other :: rest => if other.uri.sameKey d.uri then d :: rest else other :: insert d rest

def put (w : Workspace) (d : Document) : Workspace := ⟨insert d w.documents⟩

def openDocument (w : Workspace) (d : Document) : Except Fault Workspace := do
  let _ ← d.uri.asKey
  return w.put d

/-- A new text and version for an open document. -/
def update (w : Workspace) (uri text version : Json) : Except Fault Workspace := do
  let d ← w.get uri
  return w.put ⟨uri, text, d.languageId, version⟩

/-- Replace the bytes between two offsets. When the end comes before the start,
the bytes between them are kept on both sides. -/
def splice (text : String) (start stop : Nat) (replacement : String) : Except Fault String :=
  let bytes := Utf8.encode text
  match Utf8.decode (bytes.take start ++ Utf8.encode replacement ++ bytes.drop stop) with
  | .ok result => .ok result
  | .error part => .error (.malformedText part)

/-- One change of a text: a whole new text, or a replacement for a range. -/
def changeText (text change : Json) : Except Fault Json :=
  match change with
  | .obj fields =>
    match Json.lookup "range" fields with
    | none => change.need "text"
    | some range => do
      let start ← (← Position.ofJson (← range.need "start")).offsetInText text
      let stop ← (← Position.ofJson (← range.need "end")).offsetInText text
      let old ← text.toText .text
      let replacement ← (← change.need "text").toText (.member "encode")
      return .str (← splice old start stop replacement)
  | .arr _ | .str _ | .ragged _ => .error (.wrongKind .field change.kind)
  | other => .error (.wrongKind .search other.kind)

/-- Apply content changes in order. -/
def applyChanges (w : Workspace) (uri changes version : Json) : Except Fault Workspace := do
  let d ← w.get uri
  let text ← (← changes.toItems).foldlM changeText d.text
  w.update uri text version

def closeDocument (w : Workspace) (uri : Json) : Except Fault Workspace := do
  let key ← uri.asKey
  return ⟨w.documents.eraseP fun d => d.uri.sameKey key⟩

/-- What a client can do to its documents. -/
inductive Operation where
  | openDocument (document : Document)
  | update (uri text version : Json)
  | change (uri changes version : Json)
  | closeDocument (uri : Json)
  deriving Repr

namespace Operation

/-- What the log says before the operation is tried. -/
def announce : Operation → List Event
  | .openDocument d =>
    [.debug ("Opened " ++ d.uri.display ++ " at version " ++ d.version.display)]
  | .closeDocument uri => [.debug ("Closed " ++ uri.display)]
  | .update .. | .change .. => []

def apply (w : Workspace) : Operation → Except Fault Workspace
  | .openDocument d => w.openDocument d
  | .update uri text version => w.update uri text version
  | .change uri changes version => w.applyChanges uri changes version
  | .closeDocument uri => w.closeDocument uri

/-- The workspace after an operation; one that fails changes nothing. -/
def run (w : Workspace) (op : Operation) : Workspace :=
  match op.apply w with
  | .ok next => next
  | .error _ => w

end Operation

end Workspace

end RenameServer
