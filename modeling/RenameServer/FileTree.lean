import RenameServer.Path
import RenameServer.Text.Utf8

/-!
A tree of files, and how a path is followed through it. Every name before the
last has to be that of a directory, two dots lead back to the directory above,
and neither names nor paths may be too long. Paths from the root and paths from the working
directory are apart; above the working directory nothing is known.
-/
namespace RenameServer

/-- What a path leads to. -/
inductive FileTree.Entry (α : Type) where
  | absent
  | directory
  | file (content : α)
  | nameTooLong
  deriving Repr, DecidableEq

/-- Entries by the names on the way to them. -/
structure FileTree (α : Type) where
  entries : List (List (List Char) × FileTree.Entry α)

namespace FileTree

variable {α : Type}

/-- The most bytes that a name may have. -/
def nameLimit : Nat := 255

/-- The most bytes that a path may have. -/
def pathLimit : Nat := 4095

/-- The name that stands for the root. -/
def rootName : List Char := ['/']

/-- The names on the way of a path, dots and all. -/
def steps (path : String) : List (List Char) :=
  let chars := path.toList
  if chars.head? = some '/' then rootName :: Path.segments chars else Path.segments chars

/-- The names of a path without dots. -/
def place (path : String) : List (List Char) :=
  (steps path).filter fun s => s ≠ [] ∧ s ≠ ['.']

def ofList (files : List (String × Entry α)) : FileTree α :=
  ⟨files.map fun f => (place f.1, f.2)⟩

/-- What stands at a place: what was put there, or a directory if something was
put below it. -/
def entryAt (tree : FileTree α) (here : List (List Char)) : Entry α :=
  if here = [] ∨ here = [rootName] then .directory
  else
    match tree.entries.find? fun e => e.1 = here with
    | some e => e.2
    | none => if tree.entries.any fun e => here.isPrefixOf e.1 then .directory else .absent

def isDirectory : Entry α → Bool
  | .directory => true
  | _ => false

/-- Follow names from a place. -/
def follow (tree : FileTree α) (here : List (List Char)) : List (List Char) → Entry α
  | [] => tree.entryAt here
  | s :: rest =>
    if !isDirectory (tree.entryAt here) then .absent
    else if s = [] ∨ s = ['.'] then tree.follow here rest
    else if s = ['.', '.'] then
      if here = [] then .absent
      else if here = [rootName] then tree.follow here rest
      else tree.follow here.dropLast rest
    else if nameLimit < (Utf8.encode (String.ofList s)).length then .nameTooLong
    else tree.follow (here ++ [s]) rest

/-- What a path leads to. -/
def lookup (tree : FileTree α) (path : String) : Entry α :=
  if pathLimit < (Utf8.encode path).length then .nameTooLong else tree.follow [] (steps path)

end FileTree

end RenameServer
