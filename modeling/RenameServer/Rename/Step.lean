import RenameServer.Edit.Basic

/-!
The items of a rename: an edit, or the reason why there will be none.
-/
namespace RenameServer

inductive FailureKind where
  | notRenamable
  | invalidName
  | noRenamer
  | conflictingEdits
  deriving Repr, DecidableEq

namespace FailureKind

def name : FailureKind → String
  | .notRenamable => "not-renamable"
  | .invalidName => "invalid-name"
  | .noRenamer => "no-renamer"
  | .conflictingEdits => "conflicting-edits"

def ofName (text : String) : Except Fault FailureKind :=
  match [notRenamable, invalidName, noRenamer, conflictingEdits].find? fun k => k.name = text with
  | some kind => .ok kind
  | none => .error (.badFailureKind text)

end FailureKind

/-- Why a rename cannot proceed. It ends the stream. -/
structure Failure where
  message : Str
  kind : FailureKind
  deriving Repr, DecidableEq

inductive Step where
  | edit (edit : LocatedEdit)
  | failure (failure : Failure)
  deriving Repr

end RenameServer
