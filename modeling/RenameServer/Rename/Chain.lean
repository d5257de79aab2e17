import RenameServer.Rename.Renamer

/-!
Several renamers as one. The chain delegates to the first renamer that applies
and whose stream starts with an edit; streams are never merged. If there is no
such renamer, the chain fails as the last one did that gave a reason.
-/
namespace RenameServer.Chain

def range? (renamers : List Renamer) (s : Source) (offset : Int) : Option ByteRange :=
  renamers.findSome? fun r => r.range? s offset

/-- Look at the first item of a stream. An edit commits to the stream, a failure
is handed on, and an empty stream counts for nothing. -/
def commit (name : String) (otherwise : Option Failure → Stream Step) : Stream Step → Stream Step
  | .done => .emit (.debug s!"{name} produced no edits") (otherwise none)
  | .raise fault => .raise fault
  | .emit event rest => .emit event (commit name otherwise rest)
  | .look rest => .look fun w => commit name otherwise (rest w)
  | .item (.failure f) _ =>
    .emit (.debug (s!"{name} declined: " ++ f.message)) (otherwise (some f))
  | .item (.edit e) rest => .emit (.debug s!"Renaming with {name}") (.item (.edit e) rest)

/-- Try the renamers that are left; `last` is the last failure so far. -/
def delegate (s : Source) (offset : Int) (newName : Json) (last : Option Failure) :
    List Renamer → Stream Step
  | [] =>
    let none := Failure.mk s!"Could not find a renamer for the symbol at offset {offset}" .noRenamer
    .item (.failure (last.getD none)) .done
  | r :: rest =>
    match r.range? s offset with
    | none => delegate s offset newName last rest
    | some _ =>
      commit r.name (fun f => delegate s offset newName (f.or last) rest)
        (r.steps s offset newName)

section

variable {p : Event → Prop} (hdebug : ∀ text, p (.debug text))

include hdebug

theorem emits_commit {name : String} {otherwise : Option Failure → Stream Step}
    (hotherwise : ∀ f, (otherwise f).Emits p) {s : Stream Step} (h : s.Emits p) :
    (commit name otherwise s).Emits p := by
  induction s with
  | done => exact ⟨hdebug _, hotherwise none⟩
  | raise fault => trivial
  | emit event rest ih => exact ⟨h.1, ih h.2⟩
  | look rest ih => exact fun w => ih w (h w)
  | item step rest =>
    cases step with
    | failure f => exact ⟨hdebug _, hotherwise (some f)⟩
    | edit e => exact ⟨hdebug _, h⟩

/-- A chain only adds log entries to the streams of its renamers. -/
theorem emits_delegate {renamers : List Renamer} {s : Source} {offset : Int} {newName : Json}
    (h : ∀ r ∈ renamers, (r.steps s offset newName).Emits p) (last : Option Failure) :
    (delegate s offset newName last renamers).Emits p := by
  induction renamers generalizing last with
  | nil => trivial
  | cons r rest ih =>
    obtain ⟨hr, hrest⟩ := List.forall_mem_cons.mp h
    rw [delegate]
    split
    · exact ih hrest last
    · exact emits_commit hdebug (fun f => ih hrest (f.or last)) hr

end

def renamer (renamers : List Renamer) : Renamer :=
  { name := "ChainRenamer"
    range? := range? renamers
    steps := fun s offset newName => delegate s offset newName none renamers
    quiet := fun s offset newName =>
      emits_delegate (fun _ => rfl) (fun r _ => r.quiet s offset newName) none }

end RenameServer.Chain
