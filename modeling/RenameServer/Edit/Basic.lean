import RenameServer.Fault

/-!
Byte ranges and the edits that replace them. Ranges are half open and never
inverted. Two insertions at one point conflict, as does an insertion strictly
inside a replaced range.
-/
namespace RenameServer

structure ByteRange where
  start : Nat
  stop : Nat
  start_le_stop : start ≤ stop
  deriving Repr, DecidableEq

namespace ByteRange

/-- Two numbers as a range. -/
def ofInts (start stop : Int) : Except Fault ByteRange :=
  if h : 0 ≤ start ∧ start ≤ stop then
    .ok ⟨start.toNat, stop.toNat, Int.toNat_le_toNat h.2⟩
  else .error (.badRange start stop)

def overlaps (a b : ByteRange) : Bool :=
  a = b ∨ (a.start < b.stop ∧ b.start < a.stop)

/-- Order by start, then by end. -/
def precedes (a b : ByteRange) : Bool :=
  a.start < b.start ∨ (a.start = b.start ∧ a.stop ≤ b.stop)

end ByteRange

/-- The replacement of a range of a document. -/
structure TextEdit where
  range : ByteRange
  replacement : String
  deriving Repr, DecidableEq

/-- An edit together with the document it applies to. -/
structure LocatedEdit where
  uri : Json
  range : ByteRange
  replacement : String
  deriving Repr

def LocatedEdit.textEdit (e : LocatedEdit) : TextEdit := ⟨e.range, e.replacement⟩

/-- A range of a document. -/
structure LocatedRange where
  uri : Json
  range : ByteRange
  deriving Repr

end RenameServer
