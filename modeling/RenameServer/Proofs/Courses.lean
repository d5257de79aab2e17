import Mathlib.Data.Nat.Basic
import RenameServer.Proofs.Renaming

/-!
The whole course of a job while others act at its pauses: the messages that it
sends, the moment at which it ends, and its result or fault. The three phases of
a rename pause after every so many edits, so the moment of each edit is known:
drawing, grouping and converting `k` edits takes `k / every` pauses each.
-/
namespace RenameServer

namespace Job

variable {α β : Type} {disk : Disk} {world : Nat → Workspace} {p : Nat}

/-- What a job sent, and when and how it ended. -/
structure Course (α : Type) where
  sent : List Json
  moment : Nat
  result : Except Fault α

/-- The course of a job that is started at the moment `p`. -/
def course (disk : Disk) (world : Nat → Workspace) (p : Nat) : Job α → Course α
  | .done a => ⟨[], p, .ok a⟩
  | .raise fault => ⟨[], p, .error fault⟩
  | .emit event next =>
    let c := next.course disk world p
    { c with sent := event.message?.toList ++ c.sent }
  | .look next => (next (world p)).course disk world p
  | .read path next => (next (disk path)).course disk world p
  | .pause next => next.course disk world (p + 1)

/-- A course that goes on if there is a result. -/
def Course.andThen (c : Course α) (next : Nat → α → Course β) : Course β :=
  match c.result with
  | .error fault => ⟨c.sent, c.moment, .error fault⟩
  | .ok a =>
    let d := next c.moment a
    { d with sent := c.sent ++ d.sent }

/-- A course with another form of its result. -/
def Course.map (f : α → β) (c : Course α) : Course β := ⟨c.sent, c.moment, c.result.map f⟩

@[simp] theorem Course.sent_map (f : α → β) (c : Course α) : (c.map f).sent = c.sent := rfl

@[simp] theorem Course.result_map (f : α → β) (c : Course α) :
    (c.map f).result = c.result.map f := rfl

theorem course_bind (job : Job α) (f : α → Job β) :
    (job >>= f).course disk world p =
      (job.course disk world p).andThen fun q a => (f a).course disk world q := by
  induction job generalizing p with
  | done a => rfl
  | raise fault => rfl
  | emit event next ih =>
    change (Job.emit event (next >>= f)).course disk world p = _
    rw [course, ih]
    simp only [course, Course.andThen]
    split
    · rfl
    · simp only [List.append_assoc]
  | look next ih => exact ih (world p)
  | read path next ih => exact ih (disk path)
  | pause next ih => exact ih

/-- After a job that sent nothing the next one starts. -/
theorem course_bind_of_ok {job : Job α} {q : Nat} {a : α}
    (h : job.course disk world p = ⟨[], q, .ok a⟩) (f : α → Job β) :
    (job >>= f).course disk world p = (f a).course disk world q := by
  rw [course_bind, h]
  rfl

theorem course_bind_of_error {job : Job α} {q : Nat} {fault : Fault}
    (h : job.course disk world p = ⟨[], q, .error fault⟩) (f : α → Job β) :
    (job >>= f).course disk world p = ⟨[], q, .error fault⟩ := by
  rw [course_bind, h]
  rfl

/-- Nothing happens after the result of a job is given another form. -/
theorem course_bind_pure (job : Job α) (f : α → β) :
    (job >>= fun a => pure (f a)).course disk world p = (job.course disk world p).map f := by
  rw [course_bind]
  obtain ⟨sent, moment, result⟩ := job.course disk world p
  cases result with
  | error fault => rfl
  | ok a => simp only [Course.andThen, Course.map, pure, course, List.append_nil, Except.map]

theorem course_ofExcept (x : Except Fault α) :
    (ofExcept x).course disk world p = ⟨[], p, x⟩ := by
  cases x <;> rfl

theorem course_locate (uri : Json) :
    (locate uri).course disk world p = ⟨[], p, located disk (world p) uri⟩ := by
  simp only [located, locate, course, run]
  split
  · rfl
  · rw [course_ofExcept, run_ofExcept]
  · split
    · rfl
    · split
      · rfl
      · simp only [course, run, course_ofExcept, run_ofExcept]

theorem Yields.result_course {q : Nat} {job : Job α} {a : α} (h : job.Yields disk world p q a) :
    (job.course disk world p).result = .ok a := by
  induction h with
  | done => rfl
  | emit _ _ ih => exact ih
  | look _ ih => exact ih
  | read _ _ ih => exact ih
  | pause _ ih => exact ih

theorem sent_announce (op : Workspace.Operation) : op.announce.filterMap Event.message? = [] := by
  cases op <;> rfl

theorem sent_interlude (ops : List Workspace.Operation) :
    (interlude ops).filterMap Event.message? = [] := by
  rw [interlude, List.filterMap_cons_none rfl, List.filterMap_flatMap]
  simp only [sent_announce, List.flatMap_eq_nil_iff, implies_true]

/-- A run under a schedule takes this course. -/
theorem run_course (schedule : Schedule) (w : Workspace) (job : Job α) :
    let r := job.run disk schedule p (worlds schedule w p)
    let c := job.course disk (worlds schedule w) p
    r.result = c.result ∧ r.events.filterMap Event.message? = c.sent := by
  induction job generalizing p with
  | done a => exact ⟨rfl, rfl⟩
  | raise fault => exact ⟨rfl, rfl⟩
  | emit event next ih =>
    obtain ⟨hresult, hsent⟩ := @ih p
    refine ⟨hresult, ?_⟩
    rw [run, course, ← hsent, List.filterMap_cons]
    cases event.message? <;> rfl
  | look next ih => exact ih _
  | read path next ih => exact ih _
  | pause next ih =>
    obtain ⟨hresult, hsent⟩ := @ih (p + 1)
    refine ⟨hresult, ?_⟩
    rw [run, course, ← hsent, List.filterMap_append, sent_interlude]
    rfl

end Job

/-- A stream that gives the same items whenever they are drawn, and sends nothing. -/
inductive Stream.Fixed {α : Type} : Stream α → List α → Prop where
  | done : Fixed .done []
  | emit {event : Event} {rest : Stream α} {items : List α} (hevent : event.message? = none)
    (h : Fixed rest items) : Fixed (.emit event rest) items
  | look {rest : Workspace → Stream α} {items : List α} (h : ∀ w, Fixed (rest w) items) :
    Fixed (.look rest) items
  | item (a : α) {rest : Stream α} {items : List α} (h : Fixed rest items) :
    Fixed (.item a rest) (a :: items)

theorem Renamer.fixed_scripted (name : String) (index : Nat) (range? : Option ByteRange)
    (steps : List Step) (s : Source) (offset : Int) (newName : Json) :
    ((scripted name index range? steps).steps s offset newName).Fixed steps := by
  apply Stream.Fixed.emit rfl
  induction steps with
  | nil => exact .done
  | cons step rest ih => exact .emit rfl (.item step ih)

/-- The failure that a step is. -/
def Step.failure? : Step → Option Failure
  | .edit _ => none
  | .failure f => some f

/-- Steps hold a failure or are edits only. -/
theorem Step.edits_or_failure (items : List Step) :
    (∃ f, items.findSome? failure? = some f) ∨
      ∃ es : List LocatedEdit, items = es.map Step.edit := by
  induction items with
  | nil => exact .inr ⟨[], rfl⟩
  | cons step rest ih =>
    cases step with
    | failure f => exact .inl ⟨f, rfl⟩
    | edit e =>
      rcases ih with ⟨f, hf⟩ | ⟨es, rfl⟩
      · exact .inl ⟨f, hf⟩
      · exact .inr ⟨e :: es, rfl⟩

namespace RenameService

open Job

variable {disk : Disk} {world : Nat → Workspace} {every : Nat}

/-- After `count` edits there have been `count / every` pauses. -/
theorem course_tick (base count : Nat) :
    (tick every (count + 1)).course disk world (base + count / every) =
      ⟨[], base + (count + 1) / every, .ok ()⟩ := by
  rw [tick, Nat.succ_div]
  by_cases h : every ∣ count + 1
  · rw [if_pos (Nat.mod_eq_zero_of_dvd h), if_pos h]
    rfl
  · rw [if_neg (mt Nat.dvd_of_mod_eq_zero h), if_neg h]
    rfl

theorem course_tick_bind {α : Type} (base count : Nat) (next : Job α) :
    ((tick every (count + 1)).bind fun _ => next).course disk world (base + count / every) =
      next.course disk world (base + (count + 1) / every) :=
  course_bind_of_ok (course_tick base count) _

theorem course_consume_edits {base : Nat} {edits es : List LocatedEdit}
    {s : Stream Step} (h : s.Fixed (es.map Step.edit)) :
    ((pausing every).consume edits s).course disk world (base + edits.length / every) =
      ⟨[], base + (edits.length + es.length) / every, .ok (.ok (edits ++ es))⟩ := by
  generalize hitems : es.map Step.edit = items at h
  induction h generalizing edits es with
  | done =>
    obtain rfl := List.map_eq_nil_iff.mp hitems
    rw [List.append_nil]
    rfl
  | emit hevent _ ih =>
    rw [consume_emit, course, ih hitems, hevent]
    rfl
  | look _ ih => exact ih _ hitems
  | item a _ ih =>
    obtain ⟨e, more, rfl, rfl, hmore⟩ := List.map_eq_cons_iff.mp hitems
    have hrest := @ih (edits ++ [e]) more hmore
    rw [List.length_append, List.length_singleton] at hrest
    rw [consume_edit, course, course_tick_bind, hrest, List.append_assoc, List.length_cons,
      Nat.add_assoc, Nat.add_comm 1]
    rfl

/-- The first failure ends the drawing. -/
theorem course_consume_failure {base : Nat} {edits : List LocatedEdit}
    {s : Stream Step} {items : List Step} {f : Failure} (h : s.Fixed items)
    (hf : items.findSome? Step.failure? = some f) :
    ∃ q, ((pausing every).consume edits s).course disk world (base + edits.length / every) =
      ⟨[], q, .ok (.error f)⟩ := by
  induction h generalizing edits with
  | done => cases hf
  | emit hevent _ ih =>
    obtain ⟨q, hq⟩ := @ih edits hf
    refine ⟨q, ?_⟩
    rw [consume_emit, course, hq, hevent]
    rfl
  | look _ ih => exact ih _ hf
  | item a _ ih =>
    cases a with
    | failure g =>
      obtain rfl := Option.some.inj hf
      exact ⟨_, rfl⟩
    | edit e =>
      obtain ⟨q, hq⟩ := @ih (edits ++ [e]) hf
      rw [List.length_append, List.length_singleton] at hq
      refine ⟨q, ?_⟩
      rw [consume_edit, course, course_tick_bind, hq]
      rfl

theorem course_group_ok {base count : Nat} {map map' : EditMap}
    {es : List LocatedEdit} (h : es.foldlM EditMap.add map = .ok map') :
    ((pausing every).group map count es).course disk world (base + count / every) =
      ⟨[], base + (count + es.length) / every, .ok (.ok map')⟩ := by
  induction es generalizing map count with
  | nil =>
    obtain rfl := Except.ok.inj h
    rfl
  | cons e rest ih =>
    rw [List.foldlM_cons] at h
    obtain ⟨next, hadd, hrest⟩ := exists_of_bind_ok h
    simp only [group_cons, hadd]
    rw [course_tick_bind, ih hrest, List.length_cons, Nat.add_assoc, Nat.add_comm 1]

/-- The first conflict ends the grouping. -/
theorem course_group_error {base count : Nat} {map : EditMap} {es : List LocatedEdit}
    {conflict : Conflict} (h : es.foldlM EditMap.add map = .error conflict) :
    ∃ q, ((pausing every).group map count es).course disk world (base + count / every) =
      ⟨[], q, .ok (.error ⟨conflict.message, .conflictingEdits⟩)⟩ := by
  induction es generalizing map count with
  | nil => cases h
  | cons e rest ih =>
    rw [List.foldlM_cons] at h
    cases hadd : map.add e with
    | error c =>
      rw [hadd] at h
      obtain rfl := Except.error.inj h
      exact ⟨base + count / every, by simp only [group_cons, hadd]; rfl⟩
    | ok next =>
      rw [hadd] at h
      obtain ⟨q, hq⟩ := @ih (count + 1) next h
      refine ⟨q, ?_⟩
      simp only [group_cons, hadd]
      rw [course_tick_bind, hq]

theorem course_convertEdits (base count : Nat) {text : String} {lookup : Lookup}
    (h : lookup.Sound text) (es : List TextEdit) :
    ((pausing every).convertEdits lookup count es).course disk world (base + count / every) =
      ⟨[], base + (count + es.length) / every, .ok (es.map (LineIndex.ofText text).edit)⟩ := by
  induction es generalizing lookup count with
  | nil => rfl
  | cons e rest ih =>
    obtain ⟨next, hedit, hnext⟩ := h.edit e
    rw [convertEdits_cons, hedit, course_bind_of_ok (course_ofExcept (.ok _)),
      course_bind_of_ok (course_tick base count), course_bind_of_ok (ih (count + 1) hnext),
      List.length_cons, Nat.add_assoc, Nat.add_comm 1]
    rfl

/-- The text of a document as it is found at one moment. -/
def fetched (disk : Disk) (w : Workspace) (uri : Json) : Except Fault String := do
  (← located disk w uri).text.toText (.member "encode")

/-- Whether a value can be a key does not depend on the workspace. -/
theorem exists_version {w : Workspace} {uri : Json} {text : String}
    (h : fetched disk w uri = .ok text) (w' : Workspace) : ∃ v, versionOf w' uri = .ok v := by
  obtain ⟨d, hd, -⟩ := exists_of_bind_ok h
  have hkey : ∃ key, uri.asKey = .ok key := by
    simp only [located, locate, run, Workspace.has] at hd
    cases hkey : uri.asKey with
    | ok key => exact ⟨key, rfl⟩
    | error fault =>
      rw [hkey] at hd
      cases hd
  obtain ⟨key, hkey⟩ := hkey
  rw [versionOf, Workspace.has_of_asKey hkey, Workspace.get_of_asKey hkey]
  cases w'.find? key with
  | none => exact ⟨.int 0, rfl⟩
  | some d => exact ⟨d.version, rfl⟩

/-- One group is converted: its text is fetched first and its version looked up last. -/
theorem course_convert_cons (base count : Nat) (g : EditGroup)
    (rest : List EditGroup) :
    let w := world (base + count / every)
    let w' := world (base + (count + g.edits.length) / every)
    (∃ fault, fetched disk w g.uri = .error fault ∧
        ((pausing every).convert count (g :: rest)).course disk world (base + count / every) =
          ⟨[], base + count / every, .error fault⟩) ∨
      ∃ text version, fetched disk w g.uri = .ok text ∧ versionOf w' g.uri = .ok version ∧
        ((pausing every).convert count (g :: rest)).course disk world (base + count / every) =
          (do
            let changes ← (pausing every).convert (count + g.edits.length) rest
            return ⟨g.uri, version, g.edits.map (LineIndex.ofText text).edit⟩ :: changes :
              Job (List DocumentChange)).course disk world
            (base + (count + g.edits.length) / every) := by
  intro w w'
  have hlocate := @course_locate disk world (base + count / every) g.uri
  cases hfetched : fetched disk w g.uri with
  | error fault =>
    refine .inl ⟨fault, rfl, ?_⟩
    rw [fetched] at hfetched
    cases hd : located disk w g.uri with
    | error fault' =>
      rw [hd] at hfetched hlocate
      obtain rfl := Except.error.inj hfetched
      rw [convert_cons, course_bind_of_error hlocate]
    | ok d =>
      rw [hd] at hfetched hlocate
      have htext : d.text.toText (.member "encode") = .error fault := hfetched
      rw [convert_cons, course_bind_of_ok hlocate, htext,
        course_bind_of_error (course_ofExcept (.error fault))]
  | ok text =>
    obtain ⟨version, hversion⟩ := exists_version hfetched w'
    obtain ⟨d, hd, htext⟩ := exists_of_bind_ok hfetched
    rw [hd] at hlocate
    refine .inr ⟨text, version, rfl, hversion, ?_⟩
    have hlook : (Job.look fun w => ofExcept (versionOf w g.uri)).course disk world
        (base + (count + g.edits.length) / every) =
        ⟨[], base + (count + g.edits.length) / every, .ok version⟩ := by
      rw [course, course_ofExcept, hversion]
    rw [convert_cons, course_bind_of_ok hlocate, htext,
      course_bind_of_ok (course_ofExcept (.ok text)),
      course_bind_of_ok (course_convertEdits base count (Lookup.sound_ofText text) _),
      course_bind_of_ok hlook]

end RenameService

end RenameServer
