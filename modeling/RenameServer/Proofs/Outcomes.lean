import RenameServer.Proofs.Renaming

/-!
Requests while nobody else acts. Pauses and events make no difference then, and
the result of a job is a plain computation on one workspace: drawing collects the
edits up to the first failure, grouping is a fold, and the groups are converted
one by one. A rename answers what comes of these three.
-/
namespace RenameServer

namespace Job

variable {α β : Type} {disk : Disk} {w : Workspace}

/-- The result of a job while the workspace stays as it is. -/
def outcome (disk : Disk) (w : Workspace) : Job α → Except Fault α
  | .done a => .ok a
  | .raise fault => .error fault
  | .emit _ next => next.outcome disk w
  | .look next => (next w).outcome disk w
  | .read path next => (next (disk path)).outcome disk w
  | .pause next => next.outcome disk w

/-- It is the result of a run in which nobody else acts. -/
theorem result_run_alone (job : Job α) (pauses : Nat) :
    (job.run disk alone pauses w).result = job.outcome disk w := by
  induction job generalizing pauses with
  | done a => rfl
  | raise fault => rfl
  | emit event next ih => exact ih pauses
  | look next ih => exact ih w pauses
  | read path next ih => exact ih (disk path) pauses
  | pause next ih => exact ih (pauses + 1)

theorem outcome_bind (job : Job α) (next : α → Job β) :
    (job >>= next).outcome disk w = job.outcome disk w >>= fun a => (next a).outcome disk w := by
  induction job with
  | done a => rfl
  | raise fault => rfl
  | emit event rest ih => exact ih
  | look rest ih => exact ih w
  | read path rest ih => exact ih (disk path)
  | pause rest ih => exact ih

@[simp] theorem outcome_ofExcept (x : Except Fault α) : (ofExcept x).outcome disk w = x := by
  cases x <;> rfl

theorem outcome_locate (uri : Json) : (locate uri).outcome disk w = located disk w uri :=
  (result_run_alone (locate uri) 0).symm

end Job

namespace RenameService

open Job

variable {disk : Disk} {w : Workspace}

@[simp] theorem outcome_tick (every count : Nat) : (tick every count).outcome disk w = .ok () := by
  unfold tick
  split <;> rfl

/-- A pause, if there is one, changes nothing. -/
theorem outcome_tick_bind {α : Type} (every count : Nat) (next : Job α) :
    ((tick every count).bind fun _ => next).outcome disk w = next.outcome disk w := by
  change (tick every count >>= fun _ => next).outcome disk w = _
  rw [outcome_bind, outcome_tick]
  rfl

/-- What comes of drawing steps after some edits: the first failure, the fault
that ended the stream, or all edits. -/
def collected (fault : Option Fault) (edits : List LocatedEdit) :
    List Step → Except Fault (Except Failure (List LocatedEdit))
  | [] =>
    match fault with
    | none => .ok (.ok edits)
    | some fault => .error fault
  | .failure failure :: _ => .ok (.error failure)
  | .edit e :: rest => collected fault (edits ++ [e]) rest

/-- The edits are the steps of a stream without a failure. -/
theorem items_of_collected {fault : Option Fault} {edits es : List LocatedEdit} {items : List Step}
    (h : collected fault edits items = .ok (.ok es)) :
    ∃ more, es = edits ++ more ∧ items = more.map Step.edit := by
  induction items generalizing edits with
  | nil =>
    cases fault with
    | none =>
      cases h
      exact ⟨[], (List.append_nil _).symm, rfl⟩
    | some fault => cases h
  | cons step rest ih =>
    cases step with
    | failure failure => cases h
    | edit e =>
      obtain ⟨more, rfl, rfl⟩ := ih h
      exact ⟨e :: more, List.append_assoc .., rfl⟩

theorem outcome_consume (every : Nat) (edits : List LocatedEdit) (s : Stream Step) :
    ((pausing every).consume edits s).outcome disk w =
      collected (s.draw w none).fault edits (s.draw w none).items := by
  induction s generalizing edits with
  | done => rfl
  | raise fault => rfl
  | emit event rest ih => exact ih edits
  | look rest ih => exact ih w edits
  | item step rest ih =>
    cases step with
    | failure failure => rfl
    | edit e => exact (outcome_tick_bind every _ _).trans (ih (edits ++ [e]))

theorem outcome_group (every : Nat) (map : EditMap) (count : Nat) (es : List LocatedEdit) :
    ((pausing every).group map count es).outcome disk w =
      .ok ((es.foldlM EditMap.add map).mapError fun conflict =>
        ⟨conflict.message, .conflictingEdits⟩) := by
  induction es generalizing map count with
  | nil => rfl
  | cons e rest ih =>
    rw [group_cons, List.foldlM_cons]
    cases hadd : map.add e with
    | error conflict => rfl
    | ok next => exact (outcome_tick_bind every _ _).trans (ih next (count + 1))

theorem outcome_convertEdits (every : Nat) {text : String} {lookup : Lookup}
    (h : lookup.Sound text) (count : Nat) (es : List TextEdit) :
    ((pausing every).convertEdits lookup count es).outcome disk w =
      .ok (es.map (LineIndex.ofText text).edit) := by
  induction es generalizing lookup count with
  | nil => rfl
  | cons e rest ih =>
    obtain ⟨next, hedit, hnext⟩ := h.edit e
    rw [convertEdits_cons, outcome_bind, outcome_ofExcept, hedit]
    apply (outcome_tick_bind every _ _).trans
    rw [outcome_bind, ih hnext]
    rfl

/-- The entry of one group of edits. -/
def entry (disk : Disk) (w : Workspace) (g : EditGroup) : Except Fault DocumentChange := do
  let document ← located disk w g.uri
  let text ← document.text.toText (.member "encode")
  let version ← versionOf w g.uri
  return ⟨g.uri, version, g.edits.map (LineIndex.ofText text).edit⟩

theorem outcome_convert (every count : Nat) (groups : List EditGroup) :
    ((pausing every).convert count groups).outcome disk w = groups.mapM (entry disk w) := by
  induction groups generalizing count with
  | nil => rfl
  | cons g rest ih =>
    simp only [convert_cons, entry, outcome_bind, outcome_locate, outcome_ofExcept,
      outcome_convertEdits every (Lookup.sound_ofText _), outcome, List.mapM_cons, ih, bind_assoc,
      pure_bind]
    rfl

/-- What comes of showing a text to the client depends on the text only, and one that can be
encoded reaches it. -/
structure Reaches (service : RenameService) (disk : Disk) (shown : Str → Except Fault Unit) :
    Prop where
  steady : ∀ text w,
    ((service.send (Message.showError text)).run disk alone 0 w).result = shown text
  plain : ∀ text : String, shown (.plain text) = .ok ()

variable {shown : Str → Except Fault Unit}

theorem outcome_fail {service : RenameService} (hsend : service.Reaches disk shown)
    (failure : Failure) :
    (service.fail failure).outcome disk w = (shown failure.message).map fun _ => .empty := by
  have hsent := hsend.steady failure.message w
  rw [result_run_alone] at hsent
  rw [fail, outcome_bind]
  change ((service.send (Message.showError failure.message)) >>= fun _ =>
    pure WorkspaceEdit.empty).outcome disk w = _
  rw [outcome_bind, hsent]
  cases shown failure.message <;> rfl

/-- The edits of steps by document. There are none if one of them is a failure or if two
edits exclude each other; the client is shown the reason. -/
def mapped (shown : Str → Except Fault Unit) :
    Except Failure (List LocatedEdit) → Except Fault (Option EditMap)
  | .error failure => (shown failure.message).map fun _ => none
  | .ok edits =>
    match edits.foldlM EditMap.add .empty with
    | .error conflict => (shown conflict.message).map fun _ => none
    | .ok map => .ok (some map)

/-- The edits of a drawn stream by document. -/
def grouped (shown : Str → Except Fault Unit) (drawn : Stream.Drawn Step) :
    Except Fault (Option EditMap) :=
  collected drawn.fault [] drawn.items >>= mapped shown

theorem edits_of_grouped {drawn : Stream.Drawn Step} {map : EditMap}
    (h : grouped shown drawn = .ok (some map)) :
    ∃ es : List LocatedEdit, drawn.items = es.map Step.edit ∧
      es.foldlM EditMap.add .empty = .ok map := by
  obtain ⟨result, hcollected, hmapped⟩ := exists_of_bind_ok h
  cases result with
  | error failure =>
    obtain ⟨_, -, hnone⟩ := exists_of_map_ok hmapped
    cases hnone
  | ok es =>
    obtain ⟨more, hes, hitems⟩ := items_of_collected hcollected
    rw [List.nil_append] at hes
    subst hes
    refine ⟨es, hitems, ?_⟩
    rw [mapped] at hmapped
    split at hmapped
    · obtain ⟨_, -, hnone⟩ := exists_of_map_ok hmapped
      cases hnone
    · next map' hfold => rw [hfold, Option.some.inj (Except.ok.inj hmapped)]

/-- The answer to a rename: the entries of all groups, or no changes. -/
def respond (disk : Disk) (w : Workspace) : Option EditMap → Except Fault WorkspaceEdit
  | none => .ok .empty
  | some map => (map.groups.mapM (entry disk w)).map WorkspaceEdit.mk

/-- The position that a request names. -/
def requestPosition (params : Json) : Except Fault Position := do
  Position.ofJson (← params.need "position")

theorem outcome_target {params uri : Json} {d : Document} {text : String}
    (huri : requestUri params = .ok uri) (hd : located disk w uri = .ok d)
    (htext : d.text = .str text) :
    (target params).outcome disk w = (do
      let position ← requestPosition params
      let offset ← position.toOffset text
      return (⟨d.uri, text⟩, offset)) := by
  obtain ⟨uri', _, language, version⟩ := d
  obtain rfl := htext
  have hrequest : (params.need "textDocument" >>= fun x => x.need "uri") = .ok uri := huri
  simp only [target, outcome_bind, outcome_ofExcept, hrequest]
  change (locate uri).outcome disk w >>= _ = _
  rw [outcome_locate, hd]
  simp only [requestPosition, bind_assoc]
  rfl

/-- The answer to a prepare request about an offset. -/
def prepared (renamer : Renamer) (source : Source) (offset : Nat) : Json :=
  match renamer.range? source offset with
  | none => .null
  | some range => ((LineIndex.ofText source.text).range range).toJson

theorem outcome_prepare (service : RenameService) (params : Json) :
    (service.prepare params).outcome disk w =
      ((target params).outcome disk w).map fun (source, offset) =>
        prepared service.renamer source offset := by
  rw [prepare, outcome_bind]
  cases (target params).outcome disk w with
  | error fault => rfl
  | ok found =>
    obtain ⟨source, offset⟩ := found
    change (match service.renamer.range? source offset with
      | none => _
      | some range => _ : Job Json).outcome disk w = .ok (prepared service.renamer source offset)
    rw [prepared]
    cases service.renamer.range? source offset with
    | none => rfl
    | some range =>
      simp only [PositionRange.ofBytes_eq]
      rfl

theorem outcome_rename {service : RenameService} (hsend : service.Reaches disk shown)
    (params : Json) :
    (service.rename params).outcome disk w = (do
      let (source, offset) ← (target params).outcome disk w
      let newName ← params.need "newName"
      let edits ← grouped shown ((service.renamer.steps source offset newName).draw w none)
      respond disk w edits) := by
  rw [rename_eq, outcome_bind]
  congr 1
  funext ⟨source, offset⟩
  rw [outcome_bind, outcome_ofExcept]
  congr 1
  funext newName
  rw [outcome_bind, outcome_consume, grouped, bind_assoc]
  congr 1
  funext drawn
  cases drawn with
  | error failure =>
    refine (outcome_fail hsend failure).trans ?_
    rw [mapped]
    cases shown failure.message <;> rfl
  | ok edits =>
    change ((pausing service.every).group .empty 0 edits >>= _).outcome disk w = _
    rw [outcome_bind, outcome_group, mapped]
    cases edits.foldlM EditMap.add .empty with
    | error conflict =>
      refine (outcome_fail hsend ⟨conflict.message, .conflictingEdits⟩).trans ?_
      cases hshown : shown conflict.message <;> simp only [hshown] <;> rfl
    | ok map =>
      change ((pausing service.every).convert 0 map.groups >>= fun changes =>
        pure (WorkspaceEdit.mk changes)).outcome disk w = _
      rw [outcome_bind, outcome_convert]
      rfl

end RenameService

end RenameServer
