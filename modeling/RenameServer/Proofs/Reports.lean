import RenameServer.Proofs.Disjointness

/-!
Which failures a rename reports. A job keeps to a property of events if all that
it emits in the workspaces of its schedule has it, and what one job is known to
give may be assumed of the next. A rename with the default renamers gives reasons
of their own kinds only, and since their edits can always be grouped, a conflict
of edits is never among the reports.
-/
namespace RenameServer

namespace Job

variable {α β : Type} {disk : Disk} {world : Nat → Workspace} {P : Event → Prop} {p : Nat}

/-- All events of a job that is started at the moment `p` have one property, and
its result has another. -/
def Keeps (disk : Disk) (world : Nat → Workspace) (P : Event → Prop) (Q : α → Prop) :
    Nat → Job α → Prop
  | _, .done a => Q a
  | _, .raise _ => True
  | p, .emit event next => P event ∧ next.Keeps disk world P Q p
  | p, .look next => (next (world p)).Keeps disk world P Q p
  | p, .read path next => (next (disk path)).Keeps disk world P Q p
  | p, .pause next => next.Keeps disk world P Q (p + 1)

theorem Keeps.bind {job : Job α} {f : α → Job β} {R : α → Prop} {Q : β → Prop}
    (h : job.Keeps disk world P R p) (hf : ∀ q a, R a → (f a).Keeps disk world P Q q) :
    (job >>= f).Keeps disk world P Q p := by
  induction job generalizing p with
  | done a => exact hf p a h
  | raise fault => trivial
  | emit event next ih => exact ⟨h.1, ih h.2⟩
  | look next ih => exact ih _ h
  | read path next ih => exact ih _ h
  | pause next ih => exact ih h

/-- A job that emits such events anywhere, and whose results are known. -/
theorem keeps_of_emits {job : Job α} {Q : α → Prop} (hemits : job.Emits P)
    (hyields : ∀ q a, job.Yields disk world p q a → Q a) : job.Keeps disk world P Q p := by
  induction job generalizing p with
  | done a => exact hyields p a (.done p a)
  | raise fault => trivial
  | emit event next ih => exact ⟨hemits.1, ih hemits.2 fun q a h => hyields q a (.emit event h)⟩
  | look next ih => exact ih _ (hemits _) fun q a h => hyields q a (.look h)
  | read path next ih => exact ih _ (hemits _) fun q a h => hyields q a (.read path h)
  | pause next ih => exact ih hemits fun q a h => hyields q a (.pause h)

theorem debug_of_announce {op : Workspace.Operation} {event : Event} (h : event ∈ op.announce) :
    ∃ text, event = .debug text := by
  cases op with
  | openDocument d => exact ⟨_, List.mem_singleton.mp h⟩
  | closeDocument uri => exact ⟨_, List.mem_singleton.mp h⟩
  | _ => cases h

/-- What others do at the pauses adds pauses and debug entries only. -/
theorem Keeps.events_run {schedule : Schedule} {w : Workspace} {job : Job α} {Q : α → Prop}
    (h : job.Keeps disk (worlds schedule w) P Q p) (hpaused : P .paused)
    (hdebug : ∀ text, P (.debug text)) :
    ∀ event ∈ (job.run disk schedule p (worlds schedule w p)).events, P event := by
  induction job generalizing p with
  | done a => exact List.forall_mem_nil _
  | raise fault => exact List.forall_mem_nil _
  | emit event next ih => exact List.forall_mem_cons.mpr ⟨h.1, ih h.2⟩
  | look next ih => exact ih _ h
  | read path next ih => exact ih _ h
  | pause next ih =>
    intro event hevent
    rcases List.mem_append.mp hevent with hevent | hevent
    · rcases List.mem_cons.mp hevent with rfl | hevent
      · exact hpaused
      · obtain ⟨op, -, hop⟩ := List.mem_flatMap.mp hevent
        obtain ⟨text, rfl⟩ := debug_of_announce hop
        exact hdebug text
    · exact ih h event hevent

end Job

namespace Stream

variable {α β : Type} {Q : α → Prop}

/-- All items of a stream have a property, whatever the workspace holds. -/
def All (Q : α → Prop) : Stream α → Prop
  | .done => True
  | .raise _ => True
  | .emit _ rest => rest.All Q
  | .look rest => ∀ w, (rest w).All Q
  | .item a rest => Q a ∧ rest.All Q

theorem all_map {f : β → α} (h : ∀ b, Q (f b)) (s : Stream β) : (s.map f).All Q := by
  induction s with
  | done => trivial
  | raise fault => trivial
  | emit event rest ih => exact ih
  | look rest ih => exact ih
  | item b rest ih => exact ⟨h b, ih⟩

theorem all_ofList {xs : List α} (h : ∀ a ∈ xs, Q a) : (ofList xs).All Q := by
  induction xs with
  | nil => trivial
  | cons a rest ih =>
    exact ⟨h a (List.mem_cons_self ..), ih fun b hb => h b (List.mem_cons_of_mem _ hb)⟩

end Stream

/-- A step that is no conflict of edits. -/
def Step.NoConflict : Step → Prop
  | .edit _ => True
  | .failure f => f.kind ≠ .conflictingEdits

theorem Renamer.all_fail {kind : FailureKind} (h : kind ≠ .conflictingEdits) (message : Str) :
    (Renamer.fail message kind).All Step.NoConflict := ⟨h, trivial⟩

theorem Variable.all_steps (s : Source) (offset : Int) (newName : Json) :
    (Variable.steps s offset newName).All Step.NoConflict := by
  simp only [Variable.steps]
  split
  · exact Renamer.all_fail (by decide) _
  split
  · exact Renamer.all_fail (by decide) _
  split
  · split
    · exact Renamer.all_fail (by decide) _
    · apply Stream.all_ofList
      intro step hstep
      obtain ⟨t, -, rfl⟩ := List.mem_map.mp hstep
      trivial
  · trivial
  · trivial

theorem Reference.all_steps (s : Source) (offset : Int) (newName : Json) :
    (Reference.steps s offset newName).All Step.NoConflict := by
  simp only [Reference.steps]
  split
  · exact Renamer.all_fail (by decide) _
  split
  · exact Renamer.all_fail (by decide) _
  split
  · split
    · exact Renamer.all_fail (by decide) _
    · exact Stream.all_map (fun _ => trivial) _
  · trivial
  · trivial

namespace Chain

theorem all_commit {name : String} {otherwise : Option Failure → Stream Step} {s : Stream Step}
    (h : s.All Step.NoConflict) (hnone : (otherwise none).All Step.NoConflict)
    (hsome : ∀ f, f.kind ≠ .conflictingEdits → (otherwise (some f)).All Step.NoConflict) :
    (commit name otherwise s).All Step.NoConflict := by
  induction s with
  | done => exact hnone
  | raise fault => trivial
  | emit event rest ih => exact ih h
  | look rest ih => exact fun w => ih w (h w)
  | item step rest =>
    cases step with
    | failure f => exact hsome f h.1
    | edit e => exact h

/-- A chain gives the reasons of its renamers, or that there is none that applies. -/
theorem all_delegate {renamers : List Renamer} {s : Source} {offset : Int} {newName : Json}
    (h : ∀ r ∈ renamers, (r.steps s offset newName).All Step.NoConflict) {last : Option Failure}
    (hlast : ∀ f ∈ last, f.kind ≠ .conflictingEdits) :
    (delegate s offset newName last renamers).All Step.NoConflict := by
  induction renamers generalizing last with
  | nil =>
    refine ⟨?_, trivial⟩
    cases last with
    | none => exact (by decide : FailureKind.noRenamer ≠ .conflictingEdits)
    | some f => exact hlast f rfl
  | cons r rest ih =>
    obtain ⟨hr, hrest⟩ := List.forall_mem_cons.mp h
    rw [delegate]
    split
    · exact ih hrest hlast
    · refine all_commit hr (ih hrest hlast) fun f hf => ih hrest ?_
      intro g hg
      obtain rfl := Option.some.inj hg
      exact hf

end Chain

namespace RenameService

open Job

variable {disk : Disk} {world : Nat → Workspace} {p q : Nat}

theorem all_standard (s : Source) (offset : Int) (newName : Json) :
    (Chain.standard.steps s offset newName).All Step.NoConflict := by
  refine Chain.all_delegate (fun r hr => ?_) fun f hf => absurd hf (by simp)
  simp only [List.mem_cons, List.not_mem_nil, or_false] at hr
  rcases hr with rfl | rfl
  · exact Variable.all_steps s offset newName
  · exact Reference.all_steps s offset newName

theorem emits_standard {P : Event → Prop} (hdebug : ∀ text, P (.debug text)) (s : Source)
    (offset : Int) (newName : Json) : (Chain.standard.steps s offset newName).Emits P := by
  refine Chain.emits_delegate hdebug (fun r hr => ?_) none
  simp only [List.mem_cons, List.not_mem_nil, or_false] at hr
  rcases hr with rfl | rfl
  · exact Variable.emits_steps s offset newName
  · exact Reference.emits_steps s offset newName

/-- A failure that ends the drawing is one of the steps. -/
theorem failure_of_consume {every : Nat} {edits : List LocatedEdit} {s : Stream Step} {f : Failure}
    (hs : s.All Step.NoConflict)
    (h : ((pausing every).consume edits s).Yields disk world p q (.error f)) :
    f.kind ≠ .conflictingEdits := by
  induction s generalizing p edits with
  | done => cases h
  | raise fault => cases h
  | emit event rest ih =>
    cases h with
    | emit _ h => exact ih hs h
  | look rest ih =>
    cases h with
    | look h => exact ih _ (hs _) h
  | item step rest ih =>
    cases step with
    | failure g =>
      cases h
      exact hs.1
    | edit e =>
      rw [consume_edit] at h
      cases h with
      | emit _ h =>
        obtain ⟨r, _, -, h⟩ := h.of_bind
        exact ih hs.2 h

/-- The document that a string names has this string for its URI. -/
theorem uri_of_located {w : Workspace} {u : String} {d : Document}
    (h : located disk w (.str u) = .ok d) : d.uri = .str u := by
  cases hfind : w.find? (.str u) with
  | some found =>
    obtain rfl := Except.ok.inj ((located_of_find? hfind).symm.trans h)
    exact Workspace.uri_of_find? hfind
  | none =>
    have hhas : w.has (.str u) = .ok false := by
      rw [Workspace.has_str, hfind, Option.isSome_none]
    rw [located_of_closed hhas] at h
    obtain ⟨path, -, hfile⟩ := exists_of_bind_ok h
    split at hfile
    · cases hfile
    · cases hentry : disk path with
      | absent =>
        rw [hentry] at hfile
        cases hfile
      | directory =>
        rw [hentry] at hfile
        cases hfile
      | file bytes =>
        rw [hentry, Document.ofFile] at hfile
        split at hfile
        · cases hfile
        · cases hfile
          rfl

/-- The report of a conflict of edits. -/
def conflictReport (text : Str) : Event :=
  .info (s!"Rename failed ({FailureKind.conflictingEdits.name}): " ++ text)

def NoConflictReport (event : Event) : Prop := ∀ text, event ≠ conflictReport text

/-- The kind of a failure can be read off its report. -/
theorem noConflictReport_of_kind {kind : FailureKind} (h : kind ≠ .conflictingEdits)
    (message : Str) :
    NoConflictReport (.info (s!"Rename failed ({kind.name}): " ++ message)) := by
  intro text hreport
  have hcut : ∀ (kind : FailureKind) (text : Str),
      (Str.plain s!"Rename failed ({kind.name}): " ++ text).points.take 18 =
        (("Rename failed (" ++ kind.name).toList.take 18).map .char := by
    intro kind text
    rw [Str.points_plain_append, List.take_append_of_le_length, ← List.map_take]
    · cases kind <;> decide
    · cases kind <;> decide
  have hlog := Event.log.inj hreport
  have hstart := congrArg (fun entry : Log.Entry => entry.text.points.take 18) hlog
  simp only [hcut] at hstart
  cases kind with
  | conflictingEdits => exact h rfl
  | _ => exact absurd hstart (by decide)

/-- Reports are log entries of one level. -/
theorem noConflictReport_of_level {level : Log.Level} (h : level ≠ .info) (text : Str) :
    NoConflictReport (.log ⟨level, text⟩) := by
  intro text' hreport
  exact h (congrArg Log.Entry.level (Event.log.inj hreport))

theorem keeps_fail {service : RenameService}
    (hsend : ∀ message, (service.send message).Emits fun event => ∀ text, event ≠ .info text)
    {failure : Failure} (h : failure.kind ≠ .conflictingEdits) :
    (service.fail failure).Keeps disk world NoConflictReport (fun _ => True) p := by
  have hreport : (report (.info
      (s!"Rename failed ({failure.kind.name}): " ++ failure.message))).Keeps disk world
      NoConflictReport (fun _ => True) p := ⟨noConflictReport_of_kind h failure.message, trivial⟩
  have hsent : (service.send (Message.showError failure.message)).Emits NoConflictReport :=
    (hsend _).imp fun event hevent text => hevent _
  refine hreport.bind fun q _ _ => ?_
  exact (keeps_of_emits (Q := fun _ => True) hsent fun _ _ _ => trivial).bind fun _ _ _ => trivial

/-- A rename by the default renamers reports no conflict. -/
theorem keeps_rename {service : RenameService} (hservice : service.renamer = Chain.standard)
    (hsend : ∀ message, (service.send message).Emits fun event => ∀ text, event ≠ .info text)
    (hworld : ∀ n, (world n).Distinct) {params : Json} {u : String}
    (huri : requestUri params = .ok (.str u)) :
    (service.rename params).Keeps disk world NoConflictReport (fun _ => True) p := by
  have hdebug : ∀ text, NoConflictReport (.debug text) := noConflictReport_of_level (by decide)
  have htarget : (target params).Keeps disk world NoConflictReport
      (fun found => found.1.uri = .str u) p := by
    refine keeps_of_emits (emits_target params) ?_
    rintro q ⟨source, offset⟩ h
    obtain ⟨-, uri, d, hrequest, hd, hsource, -⟩ := target_cases h
    obtain rfl := Except.ok.inj (huri.symm.trans hrequest)
    rw [hsource, uri_of_located hd]
  refine htarget.bind ?_
  rintro q ⟨source, offset⟩ hsource
  refine (keeps_of_emits (Q := fun _ => True) (emits_ofExcept _) fun _ _ _ => trivial).bind ?_
  intro q newName _
  have hconsume : ((pausing service.every).consume []
      (service.renamer.steps source offset newName)).Keeps disk world NoConflictReport
      (fun drawn => (∀ es, drawn = .ok es → Separate es) ∧
        ∀ f, drawn = .error f → f.kind ≠ .conflictingEdits) q := by
    rw [hservice]
    refine keeps_of_emits (emits_consume (noConflictReport_of_level (by decide)) _ _
      (emits_standard hdebug _ _ _)) ?_
    intro r drawn h
    constructor
    · rintro es rfl
      obtain ⟨more, hes, hgives⟩ := gives_of_consume h
      rw [List.nil_append] at hes
      subst hes
      have hedits : (es.map Step.edit).filterMap Step.edit? = es :=
        (Step.filterMap_edit? id es).trans (List.map_id es)
      rw [← hedits]
      exact separate_of_gives (u := .plain u) hworld hsource hgives
    · rintro f rfl
      exact failure_of_consume (all_standard _ _ _) h
  refine hconsume.bind ?_
  rintro q (failure | es) ⟨hes, hfailure⟩
  · exact keeps_fail hsend (hfailure failure rfl)
  · obtain ⟨map, hmap, -⟩ := (hes es rfl).exists_groups
    have hgroup : ((pausing service.every).group .empty 0 es).Keeps disk world
        NoConflictReport (fun grouped => grouped = .ok map) q := by
      refine keeps_of_emits (emits_group ..) ?_
      intro r grouped h
      have hcourse := @course_group_ok disk world service.every q 0 _ _ _ hmap
      rw [Nat.zero_div, Nat.add_zero] at hcourse
      have hresult := h.result_course
      rw [hcourse] at hresult
      exact (Except.ok.inj hresult).symm
    refine hgroup.bind ?_
    rintro q _ rfl
    refine ⟨hdebug _, ?_⟩
    exact (keeps_of_emits (Q := fun _ => True) (emits_convert ..) fun _ _ _ => trivial).bind
      fun _ _ _ => trivial

/-- For every cursor document, offset and new name, and whatever others do at the
pauses: no two edits of the default chain meet, grouping keeps all of them, and a
rename never reports a conflict of edits. -/
theorem rename_noConflict {service : RenameService} (hservice : service.renamer = Chain.standard)
    (hsend : ∀ message, (service.send message).Emits fun event => ∀ text, event ≠ .info text)
    {w : Workspace} (hw : w.Distinct) (schedule : Schedule) {u : String} :
    (∀ text offset newName p q items,
      (Chain.standard.steps ⟨.str u, text⟩ offset newName).Gives (worlds schedule w) p q items →
      let es := items.filterMap Step.edit?
      Separate es ∧ ∃ map, EditMap.ofList es = .ok map ∧
        map.groups.map EditGroup.uri = EditMap.targets es ∧
        ∀ g ∈ map.groups,
          g.edits = (es.filter fun e => e.uri.sameKey g.uri).map LocatedEdit.textEdit) ∧
      ∀ disk params, requestUri params = .ok (.str u) →
        ∀ text, conflictReport text ∉ ((service.rename params).run disk schedule 0 w).events := by
  have hworld : ∀ n, (worlds schedule w n).Distinct := Workspace.distinct_worlds hw
  constructor
  · intro text offset newName p q items h
    have hseparate := separate_of_gives (u := .plain u) hworld rfl h
    exact ⟨hseparate, hseparate.exists_groups⟩
  · intro disk params huri text hmem
    have hkeeps :=
      @keeps_rename disk (worlds schedule w) 0 service hservice hsend hworld params u huri
    have hpaused : NoConflictReport .paused := fun text heq => nomatch heq
    exact hkeeps.events_run hpaused (noConflictReport_of_level (by decide)) _ hmem text rfl

/-- A function that is used where it is declared and in another document. -/
theorem rename_noConflict_shared :
    let service : RenameService := ⟨Chain.standard, 1, fun message => report (.sent message)⟩
    let w : Workspace := ⟨[⟨.str "b", .str "f();", .null, .int 4⟩,
      ⟨.str "a", .str "function f() { f(); }", .null, .int 1⟩]⟩
    let params : Json := .obj [("textDocument", .obj [("uri", .str "a")]),
      ("position", .obj [("line", .int 0), ("character", .int 9)]), ("newName", .str "g")]
    let drawn := (Chain.standard.steps ⟨.str "a", "function f() { f(); }"⟩ 9 (.str "g")).draw w none
    let es := drawn.items.filterMap Step.edit?
    es.length = 3 ∧ Separate es ∧ (∃ map, EditMap.ofList es = .ok map ∧
        map.groups.map EditGroup.uri = EditMap.targets es) ∧
      ∀ text, conflictReport text ∉
        ((service.rename params).run (fun _ => .absent) alone 0 w).events := by
  intro service w params drawn es
  have hw : w.Distinct := by
    show [some (Json.Key.text "b"), some (Json.Key.text "a")].Nodup
    decide
  have hsend : ∀ message, (service.send message).Emits fun event => ∀ text, event ≠ .info text :=
    fun message => ⟨(fun text heq => nomatch heq), trivial⟩
  obtain ⟨hedits, hreports⟩ := @rename_noConflict service rfl hsend w hw alone "a"
  have hgives := Stream.gives_draw w (Chain.standard.steps ⟨.str "a", "function f() { f(); }"⟩ 9
    (.str "g"))
  rw [← worlds_alone w] at hgives
  obtain ⟨hseparate, map, hmap, huris, -⟩ := hedits _ _ _ _ _ _ hgives
  exact ⟨by decide +kernel, hseparate, ⟨map, hmap, huris⟩, hreports _ params rfl⟩

end RenameService

end RenameServer
