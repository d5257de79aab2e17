import RenameServer.Position
import RenameServer.Uri

/-!
Documents: what a client has sent, or what a file holds. Clients may send any
value for any field, and it is kept as it came; whoever needs a text finds out
then whether there is one.
-/
namespace RenameServer

open Utf8 (Bytes)

structure Document where
  uri : Json
  text : Json
  languageId : Json
  version : Json
  deriving Repr

/-- A document whose text is at hand. -/
structure Source where
  uri : Json
  text : String
  deriving Repr

/-- What a path leads to. -/
inductive FileEntry where
  | absent
  | directory
  | file (bytes : Bytes)
  deriving Repr, DecidableEq

/-- The byte offset of a position in a text with a half that stands alone. Only what
comes before the position is encoded: the lines before it as a whole, and its own
line character by character. -/
def Position.offsetInRagged (p : Position) (r : Ragged) : Except Fault Nat := do
  let offset ← p.toOffset r.before
  let begun := Position.lastLine r.before.toList
  let ended := (Position.lines r.before.toList).length - if begun = [] then 0 else 1
  if p.line < ended ∨ p.line = ended ∧ p.character ≤ Position.lineWidth begun then return offset
  else if p.line = ended then throw (.unencodable r.half 0 1)
  else throw (.unencodable r.half begun.length r.run)

/-- The byte offset of a position in what was sent as a text. -/
def Position.offsetInText (p : Position) (text : Json) : Except Fault Nat :=
  match text with
  | .str s => p.toOffset s
  | .ragged r => p.offsetInRagged r
  | other => do
    let _ ← p.toOffset ""
    throw (.wrongKind .text other.kind)

namespace Document

/-- Line ends of a file: CRLF and CR are read as LF. -/
def unixLines : List Char → List Char
  | [] => []
  | '\r' :: '\n' :: rest => '\n' :: unixLines rest
  | c :: rest => (if c = '\r' then '\n' else c) :: unixLines rest

/-- The document that a file holds. Its bytes must be UTF-8. -/
def ofFile (uri : Json) : FileEntry → Except Fault Document
  | .absent | .directory => .error (.documentNotFound uri)
  | .file bytes =>
    match Utf8.decode bytes with
    | .error part => .error (.malformedText part)
    | .ok text => .ok ⟨uri, .str (String.ofList (unixLines text.toList)), .str "", .int 0⟩

end Document

end RenameServer
