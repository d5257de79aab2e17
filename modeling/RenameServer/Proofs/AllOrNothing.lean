import Mathlib.Algebra.GroupWithZero.Nat
import RenameServer.Proofs.Compatible
import RenameServer.Proofs.Courses
import RenameServer.Proofs.Outcomes

/-!
A rename is all or nothing. Its renamer gives a list of steps, drawn one by one
while others act at the pauses. If there is a failure among the steps, or if two
of the edits exclude each other, the client is shown one error and gets no
change at all. Otherwise it is shown nothing: the rename is stopped by a document
that cannot be fetched when its turn comes, or each document gets one entry with
all its edits.
-/
namespace RenameServer.RenameService

open Job EditMap

variable {disk : Disk} {world : Nat → Workspace} {every : Nat}

/-- A message to the client arrives, and nothing else is sent. -/
def Delivers (service : RenameService) : Prop :=
  ∀ message disk world p, (service.send message).course disk world p = ⟨[message], p, .ok ()⟩

/-- The client of a service that is used on its own. -/
theorem delivers_report (renamer : Renamer) (every : Nat) :
    Delivers ⟨renamer, every, fun message => report (.sent message)⟩ :=
  fun _ _ _ _ => rfl

theorem course_fail {service : RenameService} (hsend : service.Delivers) (failure : Failure)
    (p : Nat) :
    (service.fail failure).course disk world p =
      ⟨[Message.showError failure.message], p, .ok .empty⟩ := by
  have hreport : ∀ event : Event, event.message? = none →
      (report event).course disk world p = ⟨[], p, .ok ()⟩ := by
    intro event hevent
    rw [report, course, hevent]
    rfl
  rw [fail, course_bind_of_ok (hreport _ rfl), course_bind, hsend]
  rfl

section Conversion

/-- The number of edits in the first groups. -/
def progress (groups : List EditGroup) (i : Nat) : Nat :=
  ((groups.take i).map fun g => g.edits.length).sum

theorem progress_cons (g : EditGroup) (rest : List EditGroup) (i : Nat) :
    progress (g :: rest) (i + 1) = g.edits.length + progress rest i := rfl

/-- The groups up to the first one whose document cannot be fetched at its turn. -/
theorem convert_cases (base count : Nat) (groups : List EditGroup) :
    let turn i := base + (count + progress groups i) / every
    let c := ((pausing every).convert count groups).course disk world (base + count / every)
    (∃ i g fault, groups[i]? = some g ∧ fetched disk (world (turn i)) g.uri = .error fault ∧
        c.sent = [] ∧ c.result = .error fault) ∨
      ∃ changes, c.sent = [] ∧ c.result = .ok changes ∧ changes.length = groups.length ∧
        ∀ i g, groups[i]? = some g → ∃ text version,
          fetched disk (world (turn i)) g.uri = .ok text ∧
          versionOf (world (turn (i + 1))) g.uri = .ok version ∧
          changes[i]? = some ⟨g.uri, version, g.edits.map (LineIndex.ofText text).edit⟩ := by
  induction groups generalizing count with
  | nil => exact .inr ⟨[], rfl, rfl, rfl, fun i g hg => by cases hg⟩
  | cons g rest ih =>
    -- The groups behind the first one come later by the edits of the first.
    have hlater : ∀ i, count + progress (g :: rest) (i + 1) =
        count + g.edits.length + progress rest i := by
      intro i
      rw [progress_cons, Nat.add_assoc]
    rcases @course_convert_cons disk world every base count g rest with
      ⟨fault, hfault, hcourse⟩ | ⟨text, version, htext, hversion, hcourse⟩
    · exact .inl ⟨0, g, fault, rfl, hfault, by rw [hcourse], by rw [hcourse]⟩
    · have hrest := ih (count + g.edits.length)
      simp only at hrest ⊢
      rw [hcourse, course_bind_pure]
      rcases hrest with ⟨i, g', fault, hg', hfault, hsent, hresult⟩ |
        ⟨changes, hsent, hresult, hlength, hentries⟩
      · exact .inl ⟨i + 1, g', fault, hg', by rwa [hlater], hsent, by
          rw [Course.result_map, hresult]
          rfl⟩
      · refine .inr ⟨⟨g.uri, version, g.edits.map (LineIndex.ofText text).edit⟩ :: changes,
          hsent, ?_, ?_, ?_⟩
        · rw [Course.result_map, hresult]
          rfl
        · rw [List.length_cons, hlength, List.length_cons]
        · intro i g' hg'
          cases i with
          | zero =>
            obtain rfl := Option.some.inj hg'
            exact ⟨text, version, htext, hversion, rfl⟩
          | succ i =>
            simp only [hlater]
            exact hentries i g' hg'

end Conversion

/-- The moment when the turn of a document comes: all edits have been drawn and
grouped, and those of the documents before it have been converted. -/
def turn (every : Nat) (es : List LocatedEdit) (i : Nat) : Nat :=
  2 * (es.length / every) +
    (((targets es).take i).map fun uri => (editsFor uri es).length).sum / every

/-- The entry of the document at an index: all its edits, in the text that is
fetched when its turn comes, for the version that it has when the turn of the
next one comes. -/
def EntryAt (disk : Disk) (world : Nat → Workspace) (every : Nat) (es : List LocatedEdit) (i : Nat)
    (uri : Json) (change : DocumentChange) : Prop :=
  ∃ text version, fetched disk (world (turn every es i)) uri = .ok text ∧
    versionOf (world (turn every es (i + 1))) uri = .ok version ∧
    change = ⟨uri, version, (editsFor uri es).map (LineIndex.ofText text).edit⟩

/-- Why there are no changes: the first failure, or the first edit that one
before it excludes. -/
inductive Refused (items : List Step) : Str → Prop where
  | failure {f : Failure} (h : items.findSome? Step.failure? = some f) : Refused items f.message
  | conflict {before after : List LocatedEdit} {d e : LocatedEdit}
    (hitems : items = (before ++ e :: after).map Step.edit) (hbefore : Compatible before)
    (hd : d ∈ before) (hexcludes : d.Excludes e) :
    Refused items (Conflict.message ⟨e.uri, d.textEdit, e.textEdit⟩)

/-- The turns of groups are the turns of their documents. -/
theorem turn_of_groups {es : List LocatedEdit} {groups : List EditGroup} (h : Groups es groups)
    (i : Nat) : 2 * (es.length / every) + (0 + progress groups i) / every = turn every es i := by
  have hsizes : (groups.take i).map (fun g => g.edits.length) =
      ((groups.take i).map EditGroup.uri).map fun uri => (editsFor uri es).length := by
    rw [List.map_map]
    apply List.map_congr_left
    intro g hg
    rw [h.edits g (List.mem_of_mem_take hg)]
    rfl
  rw [turn, progress, hsizes, List.map_take, h.uris, Nat.zero_add]

theorem course_target {params uri : Json} {d : Document} {text : String} {position : Position}
    {offset p : Nat} (huri : requestUri params = .ok uri) (hd : located disk (world p) uri = .ok d)
    (htext : d.text = .str text) (hposition : requestPosition params = .ok position)
    (hoffset : position.toOffset text = .ok offset) :
    (target params).course disk world p = ⟨[], p, .ok (⟨d.uri, text⟩, offset)⟩ := by
  obtain ⟨uri', _, language, version⟩ := d
  obtain rfl := htext
  have hrequest : (params.need "textDocument" >>= fun x => x.need "uri") = .ok uri := huri
  have hlocate := @course_locate disk world p uri
  have hplace : (do (← Position.ofJson (← params.need "position")).offsetInText (.str text) :
      Except Fault Nat) = .ok offset := by
    rw [requestPosition] at hposition
    obtain ⟨x, hx, hposition⟩ := exists_of_bind_ok hposition
    rw [hx]
    change (Position.ofJson x >>= fun position => position.offsetInText (.str text)) = _
    rw [hposition]
    exact hoffset
  rw [hd] at hlocate
  rw [target, hrequest, course_bind_of_ok (course_ofExcept (.ok uri)), course_bind_of_ok hlocate,
    hplace, course_bind_of_ok (course_ofExcept (.ok offset))]
  rfl

section Phases

variable {service : RenameService} {params newName : Json} {source : Source} {offset : Nat}

/-- The course of a rename whose steps hold a failure. -/
theorem course_rename_failure (hsend : service.Delivers)
    (htarget : (target params).course disk world 0 = ⟨[], 0, .ok (source, offset)⟩)
    (hname : params.need "newName" = .ok newName) {items : List Step} {f : Failure}
    (hitems : (service.renamer.steps source offset newName).Fixed items)
    (hf : items.findSome? Step.failure? = some f) :
    ∃ q, (service.rename params).course disk world 0 =
      ⟨[Message.showError f.message], q, .ok .empty⟩ := by
  obtain ⟨q, hconsume⟩ := @course_consume_failure disk world service.every 0 [] _ _ _ hitems hf
  rw [List.length_nil, Nat.zero_div] at hconsume
  refine ⟨q, ?_⟩
  rw [rename_eq, course_bind_of_ok htarget, hname,
    course_bind_of_ok (course_ofExcept (.ok newName)), course_bind_of_ok hconsume]
  exact course_fail hsend f q

variable {es : List LocatedEdit}

/-- Edits only are drawn, in one pause after every so many of them. -/
theorem course_consume_all (hitems : (service.renamer.steps source offset newName).Fixed
      (es.map Step.edit)) :
    ((pausing service.every).consume []
        (service.renamer.steps source offset newName)).course disk world 0 =
      ⟨[], es.length / service.every, .ok (.ok es)⟩ := by
  have hconsume := @course_consume_edits disk world service.every 0 [] _ _ hitems
  simpa only [List.length_nil, Nat.zero_div, Nat.zero_add, List.nil_append] using hconsume

theorem course_rename_conflict (hsend : service.Delivers)
    (htarget : (target params).course disk world 0 = ⟨[], 0, .ok (source, offset)⟩)
    (hname : params.need "newName" = .ok newName)
    (hitems : (service.renamer.steps source offset newName).Fixed (es.map Step.edit))
    {conflict : Conflict} (hgroup : ofList es = .error conflict) :
    ∃ q, (service.rename params).course disk world 0 =
      ⟨[Message.showError conflict.message], q, .ok .empty⟩ := by
  obtain ⟨q, hcourse⟩ := @course_group_error disk world service.every
    (es.length / service.every) 0 _ _ _ hgroup
  rw [Nat.zero_div, Nat.add_zero] at hcourse
  refine ⟨q, ?_⟩
  rw [rename_eq, course_bind_of_ok htarget, hname,
    course_bind_of_ok (course_ofExcept (.ok newName)),
    course_bind_of_ok (course_consume_all hitems)]
  change ((pausing service.every).group .empty 0 es >>= _).course disk world _ = _
  rw [course_bind_of_ok hcourse]
  exact course_fail hsend ⟨conflict.message, .conflictingEdits⟩ q

theorem course_rename_edits
    (htarget : (target params).course disk world 0 = ⟨[], 0, .ok (source, offset)⟩)
    (hname : params.need "newName" = .ok newName)
    (hitems : (service.renamer.steps source offset newName).Fixed (es.map Step.edit))
    {map : EditMap} (hgroup : ofList es = .ok map) :
    (service.rename params).course disk world 0 =
      ((pausing service.every).convert 0 map.groups >>= fun changes =>
        pure ⟨changes⟩).course disk world (2 * (es.length / service.every)) := by
  have hcourse := @course_group_ok disk world service.every (es.length / service.every) 0 _ _ _
    hgroup
  rw [Nat.zero_div, Nat.add_zero, Nat.zero_add, ← Nat.two_mul] at hcourse
  rw [rename_eq, course_bind_of_ok htarget, hname,
    course_bind_of_ok (course_ofExcept (.ok newName)),
    course_bind_of_ok (course_consume_all hitems)]
  change ((pausing service.every).group .empty 0 es >>= _).course disk world _ = _
  rw [course_bind_of_ok hcourse]
  rfl

end Phases

/-- A rename of a document that can be fetched, at a position that converts, ends
in one of three ways: the client is shown the reason and gets no change; or the
edits are compatible, and then nothing is sent and the rename is stopped where a
document cannot be fetched, or there is one entry with all edits for each document. -/
theorem rename_allOrNothing {service : RenameService} (hsend : service.Delivers) {w : Workspace}
    {params uri newName : Json} {d : Document} {text : String} {position : Position} {offset : Nat}
    (huri : requestUri params = .ok uri) (hd : located disk w uri = .ok d)
    (htext : d.text = .str text) (hposition : requestPosition params = .ok position)
    (hoffset : position.toOffset text = .ok offset)
    (hname : params.need "newName" = .ok newName) {items : List Step}
    (hitems : (service.renamer.steps ⟨d.uri, text⟩ offset newName).Fixed items)
    (schedule : Schedule) :
    let r := (service.rename params).run disk schedule 0 w
    let sent := r.events.filterMap Event.message?
    let world := worlds schedule w
    (∃ message, Refused items message ∧ r.result = .ok .empty ∧
        sent = [Message.showError message]) ∨
      (∃ es i uri fault, items = es.map Step.edit ∧ Compatible es ∧ sent = [] ∧
        (targets es)[i]? = some uri ∧
        fetched disk (world (turn service.every es i)) uri = .error fault ∧
        r.result = .error fault) ∨
      ∃ es changes, items = es.map Step.edit ∧ Compatible es ∧ sent = [] ∧
        r.result = .ok ⟨changes⟩ ∧ changes.length = (targets es).length ∧
        ∀ i uri, (targets es)[i]? = some uri → ∃ change, changes[i]? = some change ∧
          EntryAt disk world service.every es i uri change := by
  intro r sent world
  obtain ⟨hresult, hsent⟩ := @run_course _ disk 0 schedule w (service.rename params)
  have htarget := @course_target disk world params uri d text position offset 0 huri hd htext
    hposition hoffset
  change r.result = _ at hresult
  change sent = _ at hsent
  rw [hresult, hsent]
  rcases Step.edits_or_failure items with ⟨f, hf⟩ | ⟨es, rfl⟩
  · obtain ⟨q, hcourse⟩ := course_rename_failure hsend htarget hname hitems hf
    rw [hcourse]
    exact .inl ⟨f.message, .failure hf, rfl, rfl⟩
  · by_cases hcompatible : Compatible es
    · obtain ⟨map, hmap, hgroups⟩ := ofList_of_compatible hcompatible
      rw [course_rename_edits htarget hname hitems hmap, course_bind_pure, Course.result_map,
        Course.sent_map]
      have hcases := @convert_cases disk world service.every (2 * (es.length / service.every)) 0
        map.groups
      simp only [Nat.zero_div, Nat.add_zero, turn_of_groups hgroups] at hcases
      have huris : ∀ (i : Nat) (uri : Json), (targets es)[i]? = some uri →
          ∃ g : EditGroup, map.groups[i]? = some g ∧ g.uri = uri ∧ g.edits = editsFor uri es := by
        intro i uri huri
        rw [← hgroups.uris, List.getElem?_map, Option.map_eq_some_iff] at huri
        obtain ⟨g, hg, rfl⟩ := huri
        exact ⟨g, hg, rfl, hgroups.edits g (List.mem_of_getElem? hg)⟩
      rcases hcases with ⟨i, g, fault, hg, hfault, hquiet, hraised⟩ |
        ⟨changes, hquiet, hdone, hlength, hentries⟩
      · rw [hquiet, hraised]
        refine .inr (.inl ⟨es, i, g.uri, fault, rfl, hcompatible, rfl, ?_, hfault, rfl⟩)
        rw [← hgroups.uris, List.getElem?_map, hg, Option.map_some]
      · rw [hquiet, hdone]
        refine .inr (.inr ⟨es, changes, rfl, hcompatible, rfl, rfl, ?_, ?_⟩)
        · rw [hlength, ← hgroups.uris, List.length_map]
        · intro i uri huri
          obtain ⟨g, hg, rfl, hedits⟩ := huris i uri huri
          obtain ⟨text, version, htext, hversion, hchange⟩ := hentries i g hg
          rw [hedits] at hchange
          exact ⟨_, hchange, text, version, htext, hversion, rfl⟩
    · obtain ⟨before, e, after, rfl, hbefore, d, hd, hexcludes, herror⟩ :=
        ofList_of_not_compatible hcompatible
      obtain ⟨q, hcourse⟩ := course_rename_conflict hsend htarget hname hitems herror
      rw [hcourse]
      exact .inl ⟨_, .conflict rfl hbefore hd hexcludes, rfl, rfl⟩

/-- Three edits in two documents, one of them given twice, while the second
document changes. -/
theorem rename_allOrNothing_repeated :
    let a : LocatedEdit := ⟨.str "a", ⟨0, 1, by decide⟩, "y"⟩
    let b : LocatedEdit := ⟨.str "b", ⟨2, 2, by decide⟩, "z"⟩
    let items : List Step := [.edit a, .edit b, .edit a]
    let service : RenameService :=
      ⟨Renamer.scripted "scripted" 0 none items, 1, fun message => report (.sent message)⟩
    let w : Workspace :=
      ⟨[⟨.str "a", .str "x", .null, .int 1⟩, ⟨.str "b", .str "uv", .null, .int 4⟩]⟩
    let schedule : Schedule := fun n =>
      if n = 7 then [.update (.str "b") (.str "u\nv") (.int 5)] else []
    let params : Json := .obj [("textDocument", .obj [("uri", .str "a")]),
      ("position", .obj [("line", .int 0), ("character", .int 0)]), ("newName", .str "y")]
    let r := (service.rename params).run (fun _ => .absent) schedule 0 w
    Compatible [a, b, a] ∧ r.events.filterMap Event.message? = [] ∧
      ∃ changes, r.result = .ok ⟨changes⟩ ∧ changes.length = 2 ∧
        ∀ i uri, [Json.str "a", Json.str "b"][i]? = some uri → ∃ change, changes[i]? = some change ∧
          EntryAt (fun _ => .absent) (worlds schedule w) 1 [a, b, a] i uri change := by
  intro a b items service w schedule params r
  have hok : r.result.toOption.isSome = true := by decide +kernel
  have hquiet : (r.events.filterMap Event.message?).length = 0 := by decide +kernel
  have hcompatible : Compatible [a, b, a] := by decide +kernel
  rcases rename_allOrNothing (delivers_report _ _)
    (show requestUri params = .ok (.str "a") from rfl)
    (show located (fun _ => .absent) w (.str "a") = .ok _ from rfl) rfl
    (show requestPosition params = .ok ⟨0, 0⟩ from rfl)
    (show Position.toOffset ⟨0, 0⟩ "x" = .ok 0 from rfl)
    (show params.need "newName" = .ok (.str "y") from rfl)
    (Renamer.fixed_scripted "scripted" 0 none items _ _ _) schedule with
    ⟨message, -, -, hsent⟩ | ⟨es, i, uri, fault, -, -, -, -, -, hresult⟩ |
    ⟨es, changes, hitems, -, hsent, hresult, hlength, hentries⟩
  · exact absurd (hquiet.symm.trans (congrArg List.length hsent)) Nat.zero_ne_one
  · have hnone : r.result.toOption = none := congrArg Except.toOption hresult
    rw [hnone] at hok
    cases hok
  · have hedits : es = [a, b, a] :=
      List.map_injective_iff.mpr (fun _ _ heq => Step.edit.inj heq) hitems.symm
    subst hedits
    exact ⟨hcompatible, hsent, changes, hresult, hlength, hentries⟩

/-- Two renames that are stopped though each document can be fetched: one has no
new name, and in the other a document gets a text that is not a string while its
edit is drawn. -/
theorem rename_stopped_otherwise :
    let service (items : List Step) : RenameService :=
      ⟨Renamer.scripted "scripted" 0 none items, 1, fun message => report (.sent message)⟩
    let w : Workspace := ⟨[⟨.str "a", .str "x", .str "", .int 1⟩]⟩
    let place : List (Str × Json) := [("textDocument", .obj [("uri", .str "a")]),
      ("position", .obj [("line", .int 0), ("character", .int 0)])]
    let schedule : Schedule := fun n =>
      if n = 1 then [.change (.str "a") (.arr [.obj [("text", .int 5)]]) (.int 2)] else []
    let edit : Step := .edit ⟨.str "a", ⟨0, 0, by decide⟩, "y"⟩
    (∀ n, ∃ d, located (fun _ => .absent) (worlds schedule w n) (.str "a") = .ok d) ∧
      requestPosition (.obj place) = .ok ⟨0, 0⟩ ∧ Position.toOffset ⟨0, 0⟩ "x" = .ok 0 ∧
      (((service []).rename (.obj place)).run (fun _ => .absent) alone 0 w).result =
        .error (.missingField "newName") ∧
      (((service [edit]).rename (.obj (place ++ [(.plain "newName", .str "y")]))).run
        (fun _ => .absent) schedule 0 w).result = .error (.wrongKind (.member "encode") .int) := by
  intro service w place schedule edit
  have hlater : ∀ n, worlds schedule w (n + 1) = ⟨[⟨.str "a", .int 5, .str "", .int 2⟩]⟩ := by
    intro n
    induction n with
    | zero => rfl
    | succ n ih => exact ih
  have hfetched : fetched (fun _ => .absent) (worlds schedule w 2) (.str "a") =
      .error (.wrongKind (.member "encode") .int) := by
    rw [hlater 1]
    rfl
  refine ⟨fun n => ?_, rfl, rfl, rfl, ?_⟩
  · cases n with
    | zero => exact ⟨_, rfl⟩
    | succ n =>
      rw [hlater]
      exact ⟨_, rfl⟩
  · let e : LocatedEdit := ⟨.str "a", ⟨0, 0, by decide⟩, "y"⟩
    let g : EditGroup := ⟨.str "a", [e.textEdit], [e.textEdit]⟩
    let params : Json := .obj (place ++ [(.plain "newName", .str "y")])
    have hplace : requestPosition params = .ok ⟨0, 0⟩ := rfl
    have hoffset : Position.toOffset ⟨0, 0⟩ "x" = .ok 0 := rfl
    have htarget := @course_target (fun _ => .absent) (worlds schedule w) params (.str "a")
      ⟨.str "a", .str "x", .str "", .int 1⟩ "x" ⟨0, 0⟩ 0 0 rfl rfl rfl hplace hoffset
    have hgroup : ofList [e] = .ok ⟨[g]⟩ := rfl
    have hcourse := @course_rename_edits (fun _ => .absent) (worlds schedule w) (service [edit])
      params (.str "y") ⟨.str "a", "x"⟩ 0 [e] htarget rfl (Renamer.fixed_scripted ..) _ hgroup
    have hrun := @run_course _ (fun _ => .absent) 0 schedule w ((service [edit]).rename params)
    have hmoment : 2 * ([e].length / (service [edit]).every) = 2 + 0 / 1 := by decide
    refine hrun.1.trans ?_
    rw [hcourse, hmoment, course_bind_pure, Course.result_map]
    -- The document is fetched after the two pauses of drawing and grouping.
    rcases @course_convert_cons (fun _ => .absent) (worlds schedule w) 1 2 0 g [] with
      ⟨fault, hfault, hconvert⟩ | ⟨text, version, htext, -⟩
    · obtain rfl := Except.error.inj (hfault.symm.trans hfetched)
      exact congrArg (fun c => c.result.map WorkspaceEdit.mk) hconvert
    · cases htext.symm.trans hfetched

end RenameServer.RenameService
