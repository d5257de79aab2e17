import RenameServer.Rename.Renamer
import RenameServer.Source.Name

/-!
Renaming a bare name, of a function, a class, a member or a constant. Its
references are the identifiers of the same spelling up to ASCII case, first in
the document of the cursor, then in the other open documents in their order.
Which documents are open is looked at when the first document is exhausted.
-/
namespace RenameServer.Reference

open Utf8 (Bytes)

/-- The identifiers among the tokens that match a spelling. -/
def matching (uri : Json) (spelling : Bytes) (tokens : List Token) : List LocatedRange :=
  (tokens.filter fun t =>
    t.kind = .identifier ∧ Token.lowerBytes t.value = Token.lowerBytes spelling).map
      fun t => ⟨uri, t.range⟩

/-- The matches in the documents other than the one at `uri`. -/
def elsewhere (uri : Json) (spelling : Bytes) : List Document → Stream LocatedRange
  | [] => .done
  | d :: rest =>
    if d.uri.same uri then elsewhere uri spelling rest
    else
      match d.text with
      | .str text =>
        .prepend (matching d.uri spelling (Source.tokens ⟨d.uri, text⟩))
          (elsewhere uri spelling rest)
      | .ragged r => .raise (.ofRagged r)
      | other => .raise (.wrongKind (.member "encode") other.kind)

/-- The references of the name under an offset. -/
def find (s : Source) (offset : Int) : Stream LocatedRange :=
  let tokens := s.tokens
  match Token.at? tokens offset .identifier with
  | none => .done
  | some target =>
    .prepend (matching s.uri target.value tokens)
      (.look fun w => elsewhere s.uri target.value w.documents)

def range? (s : Source) (offset : Int) : Option ByteRange :=
  match Token.at? s.tokens offset .identifier with
  | some t => if Name.isReserved t.name then none else some t.range
  | none => none

def steps (s : Source) (offset : Int) (newName : Json) : Stream Step :=
  match Token.at? s.tokens offset .identifier with
  | none => Renamer.fail "Cursor is not on a name" .notRenamable
  | some target =>
    if Name.isReserved target.name then
      Renamer.fail s!"\"{target.name}\" is a reserved word" .notRenamable
    else
      match newName with
      | .str newName =>
        if !Name.isIdentifier newName || Name.isReserved newName then
          Renamer.fail s!"\"{newName}\" is not a valid identifier" .invalidName
        else (find s offset).map fun r => .edit ⟨r.uri, r.range, newName⟩
      | .ragged r => .raise (.ofRagged r)
      | other => .raise (.wrongKind (.member "encode") other.kind)

section

variable {p : Event → Prop}

theorem emits_elsewhere (uri : Json) (spelling : Bytes) (documents : List Document) :
    (elsewhere uri spelling documents).Emits p := by
  induction documents with
  | nil => trivial
  | cons d rest ih =>
    rw [elsewhere]
    split
    · exact ih
    split
    · exact ih.prepend _
    · trivial
    · trivial

theorem emits_find (s : Source) (offset : Int) : (find s offset).Emits p := by
  unfold find
  dsimp only
  split
  · trivial
  · refine Stream.Emits.prepend ?_ _
    exact fun w => emits_elsewhere ..

theorem emits_steps (s : Source) (offset : Int) (newName : Json) :
    (steps s offset newName).Emits p := by
  unfold steps
  split
  · trivial
  split
  · trivial
  split
  · split
    · trivial
    · exact (emits_find s offset).map _
  · trivial
  · trivial

end

def renamer : Renamer := { name := "ReferenceRenamer", range?, steps, quiet := emits_steps }

end RenameServer.Reference
