import RenameServer.Edit.Basic
import RenameServer.Json.Key

/-!
Edits grouped by document. Documents keep the order in which they were first
seen and edits the order in which they were added. Adding an edit that is there
changes nothing; any other overlap is a conflict. The accepted edits of a
document are also kept sorted by range, and since they never overlap, a new edit
is compared with its two neighbours only.
-/
namespace RenameServer

/-- Two edits of one document that exclude each other; `first` was there before. -/
structure Conflict where
  uri : Json
  first : TextEdit
  second : TextEdit
  deriving Repr

def Conflict.message (c : Conflict) : Str :=
  "Overlapping edits in " ++ c.uri.display ++
    Str.plain (s!": {c.first.range.start}..{c.first.range.stop} and " ++
      s!"{c.second.range.start}..{c.second.range.stop}")

/-- The edits of one document, as added and sorted by range. -/
structure EditGroup where
  uri : Json
  edits : List TextEdit
  sorted : List TextEdit
  deriving Repr

namespace EditGroup

/-- The place of an edit in the sorted list: after all edits that do not follow it. -/
def place (sorted : List TextEdit) (edit : TextEdit) : Nat :=
  (sorted.takeWhile fun other => other.range.precedes edit.range).length

/-- The sorted edits next to a place. -/
def neighbours (sorted : List TextEdit) (i : Nat) : List TextEdit :=
  (sorted.drop (i - 1)).take (i + 1 - (i - 1))

/-- What the neighbours say about a new edit: it is there already, it conflicts, or neither. -/
inductive Verdict where
  | present
  | conflict (other : TextEdit)
  | free
  deriving Repr, DecidableEq

def verdict (edit : TextEdit) : List TextEdit → Verdict
  | [] => .free
  | other :: more =>
    if other = edit then .present
    else if other.range.overlaps edit.range then .conflict other
    else verdict edit more

/-- Add one edit, unless another one excludes it. -/
def add (group : EditGroup) (edit : TextEdit) : Except TextEdit EditGroup :=
  let i := place group.sorted edit
  match verdict edit (neighbours group.sorted i) with
  | .present => .ok group
  | .conflict other => .error other
  | .free =>
    .ok { group with
      edits := group.edits ++ [edit]
      sorted := group.sorted.take i ++ edit :: group.sorted.drop i }

end EditGroup

/-- Groups of edits, one for each document. -/
structure EditMap where
  groups : List EditGroup
  deriving Repr

namespace EditMap

def empty : EditMap := ⟨[]⟩

def addTo (uri : Json) (edit : TextEdit) : List EditGroup → Except Conflict (List EditGroup)
  | [] => .ok [⟨uri, [edit], [edit]⟩]
  | group :: rest =>
    if group.uri.sameKey uri then
      ((group.add edit).mapError fun other => ⟨uri, other, edit⟩).map (· :: rest)
    else (addTo uri edit rest).map (group :: ·)

/-- Add one edit; a conflict leaves the map as it was. -/
def add (map : EditMap) (edit : LocatedEdit) : Except Conflict EditMap :=
  (addTo edit.uri edit.textEdit map.groups).map (⟨·⟩)

/-- Group a list of edits. -/
def ofList (edits : List LocatedEdit) : Except Conflict EditMap :=
  edits.foldlM add empty

def size (map : EditMap) : Nat := map.groups.length

def editCount (map : EditMap) : Nat := map.groups.foldr (fun g n => g.edits.length + n) 0

end EditMap

end RenameServer
