import RenameServer.Json.Access

/-!
Positions count lines and UTF-16 code units from zero. A line ends with CRLF,
CR or LF. Going from a position to a byte offset, a column past the content of
its line stops there, a column inside a surrogate pair goes back to the start of
the character, and a line past the end is the end of the text.
-/
namespace RenameServer

structure Position where
  line : Int
  character : Int
  deriving Repr, DecidableEq

namespace Position

def ofJson (value : Json) : Except Fault Position := do
  let line ← (← value.need "line").toInt
  let character ← (← value.need "character").toInt
  return ⟨line, character⟩

def toJson (p : Position) : Json :=
  .obj [("line", .int p.line), ("character", .int p.character)]

/-- UTF-16 code units of a character. -/
def width (c : Char) : Nat := if 0xffff < c.toNat then 2 else 1

/-- Bytes of a text in UTF-8. -/
def byteLength (text : List Char) : Nat :=
  text.foldr (fun c n => c.utf8Size + n) 0

/-- The lines of a text, each with its terminator. Nothing follows the last one. -/
def lines : List Char → List (List Char)
  | [] => []
  | '\r' :: '\n' :: rest => ['\r', '\n'] :: lines rest
  | c :: rest =>
    if c = '\r' ∨ c = '\n' then [c] :: lines rest
    else
      match lines rest with
      | [] => [[c]]
      | l :: more => (c :: l) :: more

/-- What follows the last line end of a text. -/
def lastLine (text : List Char) : List Char :=
  (text.reverse.takeWhile fun c => c ≠ '\r' ∧ c ≠ '\n').reverse

/-- UTF-16 code units of a line. -/
def lineWidth (line : List Char) : Nat := line.foldr (fun c n => width c + n) 0

/-- A line without its terminator. -/
def content (line : List Char) : List Char := line.takeWhile fun c => c ≠ '\r' ∧ c ≠ '\n'

/-- Bytes of the longest start of a line that spans at most `units` code units. -/
def columnBytes : (units : Nat) → List Char → Nat
  | _, [] => 0
  | units, c :: rest =>
    if width c ≤ units then c.utf8Size + columnBytes (units - width c) rest else 0

/-- The offset of a line and column among the lines that are left. -/
def offsetIn (line character : Nat) : List (List Char) → Nat
  | [] => 0
  | l :: more =>
    match line with
    | 0 => columnBytes character (content l)
    | n + 1 => byteLength l + offsetIn n character more

/-- The byte offset of a position in a text. -/
def toOffset (p : Position) (text : String) : Except Fault Nat :=
  if p.line < 0 ∨ p.character < 0 then .error (.badPosition p.line p.character)
  else .ok (offsetIn p.line.toNat p.character.toNat (lines text.toList))

end Position

end RenameServer
