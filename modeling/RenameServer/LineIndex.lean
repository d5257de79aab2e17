import RenameServer.Edit.Basic
import RenameServer.Position
import RenameServer.Text.Utf8

/-!
Positions of byte offsets in one text. The starts of the lines are found once;
a query finds its line among them and counts columns on that line alone. An
offset past the end is the end, an offset inside a character is its start, and
between the CR and the LF of a line end the next line has begun.
-/
namespace RenameServer

open Utf8 (Bytes)

/-- The offsets just after each line end, the next byte being at `offset`. -/
def LineIndex.startsFrom (offset : Nat) : Bytes → List Nat
  | [] => []
  | 0x0d :: 0x0a :: rest => (offset + 2) :: startsFrom (offset + 2) rest
  | b :: rest =>
    if b = 0x0d ∨ b = 0x0a then (offset + 1) :: startsFrom (offset + 1) rest
    else startsFrom (offset + 1) rest

structure LineIndex where
  bytes : Bytes
  starts : List Nat
  deriving Repr

namespace LineIndex

def ofText (text : String) : LineIndex :=
  let bytes := Utf8.encode text
  ⟨bytes, 0 :: startsFrom 0 bytes⟩

/-- The UTF-16 column of the character that holds the byte `n` of a line. -/
def columnAt : (n : Nat) → List Char → Nat
  | _, [] => 0
  | n, c :: rest =>
    if n < c.utf8Size then 0 else Position.width c + columnAt (n - c.utf8Size) rest

/-- The bytes of the line that starts at an offset, terminator included. -/
def lineBytes (index : LineIndex) (line start : Nat) : Bytes :=
  let stop := index.starts.getD (line + 1) index.bytes.length
  (index.bytes.drop start).take (stop - start)

/-- The characters of a line, terminator included. -/
def lineChars (index : LineIndex) (line : Nat) : List Char :=
  Utf8.decodeLossy (index.lineBytes line (index.starts.getD line 0))

/-- The position of an offset that is within the text. -/
def locate (index : LineIndex) (offset : Nat) : Position :=
  let line := (index.starts.filter fun s => s ≤ offset).length - 1
  let start := index.starts.getD line 0
  if start < offset ∧ (index.bytes.drop (offset - 1)).take 2 = [0x0d, 0x0a] then
    ⟨line + 1, 0⟩
  else ⟨line, columnAt (offset - start) (index.lineChars line)⟩

end LineIndex

/-- A range of positions. -/
structure PositionRange where
  start : Position
  stop : Position
  deriving Repr, DecidableEq

def PositionRange.toJson (r : PositionRange) : Json :=
  .obj [("start", r.start.toJson), ("end", r.stop.toJson)]

/-- An edit with its range in positions. -/
structure PositionEdit where
  range : PositionRange
  newText : String
  deriving Repr, DecidableEq

def PositionEdit.toJson (e : PositionEdit) : Json :=
  .obj [("range", e.range.toJson), ("newText", .str e.newText)]

namespace LineIndex

def range (index : LineIndex) (r : ByteRange) : PositionRange :=
  ⟨index.locate (min r.start index.bytes.length), index.locate (min r.stop index.bytes.length)⟩

def edit (index : LineIndex) (e : TextEdit) : PositionEdit :=
  ⟨index.range e.range, e.replacement⟩

end LineIndex

end RenameServer
