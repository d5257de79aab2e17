import RenameServer.Rename.Step
import RenameServer.Source.Token
import RenameServer.Stream

/-!
A renamer renames one kind of symbol. It says which range it would rename at an
offset, if it applies there, and streams the edits. It has no way to the client.
-/
namespace RenameServer

structure Renamer where
  name : String
  range? : Source → Int → Option ByteRange
  steps : Source → Int → Json → Stream Step
  quiet : ∀ s offset newName, (steps s offset newName).Quiet

def Token.range (t : Token) : ByteRange := ⟨t.start, t.stop, Nat.le_add_right ..⟩

def Source.tokens (s : Source) : List Token := Token.scan (Utf8.encode s.text)

namespace Renamer

/-- The stream of a single failure. -/
def fail (message : Str) (kind : FailureKind) : Stream Step :=
  .item (.failure ⟨message, kind⟩) .done

/-- Steps that report each time one of them is drawn. -/
def observed (index : Nat) : List Step → Stream Step
  | [] => .done
  | s :: rest => .emit (.drawn index) (.item s (observed index rest))

theorem quiet_observed (index : Nat) (steps : List Step) : (observed index steps).Quiet := by
  induction steps with
  | nil => trivial
  | cons s steps ih => exact ⟨rfl, ih⟩

/-- A renamer with a fixed range and fixed steps, which reports under its index
when its stream is started and how far it is drawn. -/
def scripted (name : String) (index : Nat) (range? : Option ByteRange) (steps : List Step) :
    Renamer :=
  { name
    range? := fun _ _ => range?
    steps := fun _ _ _ => .emit (.started index) (observed index steps)
    quiet := fun _ _ _ => ⟨rfl, quiet_observed index steps⟩ }

end Renamer

end RenameServer
