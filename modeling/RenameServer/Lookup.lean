import RenameServer.LineIndex

/-!
Position queries on one text. On a line of ASCII the column of a byte is its
distance from the start of the line. Any other line gets a table of columns the
first time an offset lands on it, and the table is kept for the queries to come.
-/
namespace RenameServer

open Utf8 (Bytes)

/-- The number of a table at an index. -/
def Table.entry (table : List Nat) (i : Nat) : Except Fault Nat :=
  match table[i]? with
  | some n => .ok n
  | none => .error .outOfTable

/-- The index of the last number of an ascending table up to `n`. -/
def Table.lastUpTo (table : List Nat) (n : Nat) : Except Fault Nat :=
  match (table.filter fun entry => entry ≤ n).length with
  | 0 => .error .outOfTable
  | i + 1 => .ok i

/-- Where each character of a line starts, and where the last one ends: the byte
in one list, the UTF-16 column in the other. -/
structure ColumnTable where
  starts : List Nat
  columns : List Nat
  deriving Repr, DecidableEq

namespace ColumnTable

/-- The table of characters of which the first starts at a byte and a column. -/
def ofChars (start column : Nat) : List Char → ColumnTable
  | [] => ⟨[start], [column]⟩
  | c :: rest =>
    let more := ofChars (start + c.utf8Size) (column + Position.width c) rest
    ⟨start :: more.starts, column :: more.columns⟩

/-- The table of a line; a line of ASCII needs none. -/
def ofLine? (line : Bytes) : Except Fault (Option ColumnTable) :=
  if line.all fun b => b < 0x80 then .ok none
  else
    match Utf8.decode line with
    | .ok text => .ok (some (ofChars 0 0 text.toList))
    | .error part => .error (.malformedText part)

/-- The column of the character that holds the byte `n` of a line. -/
def column (table : ColumnTable) (n : Nat) : Except Fault Nat := do
  Table.entry table.columns (← Table.lastUpTo table.starts n)

end ColumnTable

/-- A line index with the tables of the lines that queries have landed on. -/
structure Lookup where
  index : LineIndex
  tables : List (Nat × Option ColumnTable)
  deriving Repr

namespace Lookup

def ofText (text : String) : Lookup := ⟨.ofText text, []⟩

/-- The table of a line: the one that is kept, or a new one. -/
def table (lookup : Lookup) (line : Nat) : Except Fault (Option ColumnTable × Lookup) :=
  match lookup.tables.lookup line with
  | some table => .ok (table, lookup)
  | none => do
    let start ← Table.entry lookup.index.starts line
    let table ← ColumnTable.ofLine? (lookup.index.lineBytes line start)
    return (table, { lookup with tables := (line, table) :: lookup.tables })

/-- The column of the byte `n` of a line. -/
def column (lookup : Lookup) (line n : Nat) : Except Fault (Nat × Lookup) := do
  match ← lookup.table line with
  | (none, next) => return (n, next)
  | (some table, next) => return (← table.column n, next)

/-- The position of an offset that is within the text. -/
def locate (lookup : Lookup) (offset : Nat) : Except Fault (Position × Lookup) := do
  let line ← Table.lastUpTo lookup.index.starts offset
  let start ← Table.entry lookup.index.starts line
  if start < offset ∧ (lookup.index.bytes.drop (offset - 1)).take 2 = [0x0d, 0x0a] then
    return (⟨line + 1, 0⟩, lookup)
  else
    let (column, next) ← lookup.column line (offset - start)
    return (⟨line, column⟩, next)

/-- The position of an offset. -/
def position (lookup : Lookup) (offset : Int) : Except Fault (Position × Lookup) :=
  if offset < 0 then .error (.badOffset offset)
  else lookup.locate (min offset.toNat lookup.index.bytes.length)

/-- The answers to queries one after the other. One that fails changes nothing. -/
def positions (lookup : Lookup) : List Int → List (Except Fault Position)
  | [] => []
  | offset :: rest =>
    match lookup.position offset with
    | .ok (position, next) => .ok position :: positions next rest
    | .error fault => .error fault :: positions lookup rest

def range (lookup : Lookup) (r : ByteRange) : Except Fault (PositionRange × Lookup) := do
  let (start, next) ← lookup.position r.start
  let (stop, next) ← next.position r.stop
  return (⟨start, stop⟩, next)

def edit (lookup : Lookup) (e : TextEdit) : Except Fault (PositionEdit × Lookup) := do
  let (range, next) ← lookup.range e.range
  return (⟨range, e.replacement⟩, next)

/-- Convert edits one after the other. -/
def edits (lookup : Lookup) : List TextEdit → Except Fault (List PositionEdit)
  | [] => .ok []
  | e :: rest => do
    let (edit, next) ← lookup.edit e
    return edit :: (← edits next rest)

end Lookup

/-- The position of a byte offset in a text. -/
def Position.ofOffset (offset : Int) (text : String) : Except Fault Position :=
  ((Lookup.ofText text).position offset).map (·.1)

/-- A byte range of a text as a range of positions. -/
def PositionRange.ofBytes (r : ByteRange) (text : String) : Except Fault PositionRange :=
  ((Lookup.ofText text).range r).map (·.1)

end RenameServer
