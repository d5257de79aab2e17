import RenameServer.Proofs.Accounts
import RenameServer.Proofs.AllOrNothing
import RenameServer.Proofs.Drawing

/-!
How often a rename pauses. Drawing, grouping and converting are noted edit by edit. While nobody
else acts, the three phases pause after every so many edits, counted anew in each phase and on
across documents in the last one, and neither the changes nor the messages depend on how often
that is.
-/
namespace RenameServer

open Job EditMap

/-! ### Different edits -/

section Distinct

variable {α : Type} {r : α → α → Bool}

theorem mem_of_mem_eraseDupsBy {l : List α} {a : α} (h : a ∈ l.eraseDupsBy r) : a ∈ l := by
  induction l using List.reverseRecOn with
  | nil => exact h
  | append_singleton l b ih =>
    rw [eraseDupsBy_concat] at h
    split at h
    · exact List.mem_append_left _ (ih h)
    · exact (List.mem_append.mp h).elim (fun h => List.mem_append_left _ (ih h))
        (List.mem_append_right _)

/-- What is like an element of a list is like one of those that are kept. -/
theorem any_eraseDupsBy (htrans : ∀ a b c, r a b = true → r b c = true → r a c = true) (a : α)
    (l : List α) : (l.eraseDupsBy r).any (r a) = l.any (r a) := by
  induction l using List.reverseRecOn with
  | nil => rfl
  | append_singleton l b ih =>
    have hone : [b].any (r a) = r a b := Bool.or_false _
    rw [eraseDupsBy_concat, List.any_append, hone, ← ih]
    split
    · next hkept =>
      obtain ⟨c, hc, hbc⟩ := List.any_eq_true.mp hkept
      cases hab : r a b with
      | false => rw [Bool.or_false]
      | true =>
        rw [Bool.or_true, List.any_eq_true]
        exact ⟨c, hc, htrans a b c hab hbc⟩
    · rw [List.any_append, hone]

end Distinct

/-- The same edit of the same document. -/
def LocatedEdit.same (d e : LocatedEdit) : Bool := d.uri.sameKey e.uri && d.textEdit = e.textEdit

/-- Edits without those that are there twice. -/
def distinct (es : List LocatedEdit) : List LocatedEdit := es.eraseDupsBy LocatedEdit.same

theorem LocatedEdit.same_iff {d e : LocatedEdit} :
    d.same e = true ↔ d.uri.key? = e.uri.key? ∧ d.textEdit = e.textEdit := by
  rw [same, Bool.and_eq_true, Json.sameKey_iff, decide_eq_true_eq]

theorem any_same_iff {e : LocatedEdit} {uri : Json} (h : uri.key? = e.uri.key?)
    (done : List LocatedEdit) :
    (distinct done).any e.same = true ↔ e.textEdit ∈ editsFor uri done := by
  have htrans : ∀ a b c : LocatedEdit, a.same b = true → b.same c = true → a.same c = true := by
    simp only [LocatedEdit.same_iff]
    rintro a b c ⟨huri, hedit⟩ ⟨huri', hedit'⟩
    exact ⟨huri.trans huri', hedit.trans hedit'⟩
  rw [distinct, any_eraseDupsBy htrans, List.any_eq_true, mem_editsFor]
  simp only [LocatedEdit.same_iff, Json.sameKey_iff, h]
  exact exists_congr fun d => and_congr_right fun _ => and_congr eq_comm eq_comm

namespace EditMap

theorem editCount_append (xs ys : List EditGroup) :
    editCount ⟨xs ++ ys⟩ = editCount ⟨xs⟩ + editCount ⟨ys⟩ := by
  induction xs with
  | nil => exact (Nat.zero_add _).symm
  | cons g xs ih => exact (congrArg (g.edits.length + ·) ih).trans (Nat.add_assoc ..).symm

/-- An edit counts unless it is there already. -/
theorem editCount_add {done : List LocatedEdit} {map map' : EditMap} {e : LocatedEdit}
    (h : Groups done map.groups) (hadd : map.add e = .ok map') :
    map'.editCount = if (distinct done).any e.same then map.editCount else map.editCount + 1 := by
  rw [add] at hadd
  rcases addTo_cases e.uri e.textEdit map.groups with
    ⟨hnone, haddTo⟩ | ⟨front, g, back, heq, hkey, -, haddTo⟩
  · -- The first edit of its document.
    rw [haddTo] at hadd
    obtain rfl := Except.ok.inj hadd
    have hnew : ¬(distinct done).any e.same = true := by
      rw [any_same_iff rfl]
      intro hmem
      obtain ⟨d, hd, hsame, -⟩ := mem_editsFor.mp hmem
      obtain ⟨g, hg, hkey⟩ := h.exists_group hd
      exact hnone g hg (hkey.trans (Json.sameKey_iff.mp hsame))
    rw [if_neg hnew, editCount_append]
    rfl
  · obtain ⟨groups⟩ := map
    obtain rfl := heq
    have hg : g ∈ front ++ g :: back := List.mem_append_right _ (List.mem_cons_self ..)
    have hthere : (distinct done).any e.same = true ↔ e.textEdit ∈ g.edits := by
      rw [any_same_iff hkey, h.edits g hg]
    rcases (h.sound g hg).add_cases e.textEdit with
      ⟨hpresent, hok⟩ | ⟨-, t, -, -, herror⟩ | ⟨hfree, g', hok, -, -, hedits⟩
    · rw [haddTo, hok] at hadd
      obtain rfl := Except.ok.inj hadd
      rw [if_pos (hthere.mpr hpresent)]
    · rw [haddTo, herror] at hadd
      cases hadd
    · rw [haddTo, hok] at hadd
      obtain rfl := Except.ok.inj hadd
      have hnew : e.textEdit ∉ g.edits := by
        intro hpresent
        have hapart := hfree _ hpresent
        rw [ByteRange.overlaps_self] at hapart
        cases hapart
      have hcount : ∀ g : EditGroup, editCount ⟨g :: back⟩ = g.edits.length + editCount ⟨back⟩ :=
        fun _ => rfl
      rw [if_neg (mt hthere.mp hnew), editCount_append, editCount_append, hcount, hcount, hedits,
        List.length_append, List.length_singleton]
      omega

/-- As many edits are grouped as are different. -/
theorem editCount_ofList {es : List LocatedEdit} {map : EditMap} (h : Compatible es)
    (hmap : ofList es = .ok map) : map.editCount = (distinct es).length := by
  induction es using List.reverseRecOn generalizing map with
  | nil =>
    obtain rfl := Except.ok.inj hmap
    rfl
  | append_singleton es e ih =>
    have hes : Compatible es := (List.pairwise_append.mp h).1
    rw [ofList, List.foldlM_append] at hmap
    obtain ⟨before, hbefore, hlast⟩ := exists_of_bind_ok hmap
    have hadd : before.add e = .ok map := by
      rw [List.foldlM_cons] at hlast
      obtain ⟨next, hnext, hdone⟩ := exists_of_bind_ok hlast
      rw [hnext]
      exact hdone
    obtain ⟨grouped, hgrouped, hgroups⟩ := ofList_of_compatible hes
    obtain rfl := Except.ok.inj (hbefore.symm.trans hgrouped)
    rw [editCount_add hgroups hadd, ih hes hbefore, distinct, distinct, eraseDupsBy_concat]
    split
    · rfl
    · rw [List.length_append, List.length_singleton]

end EditMap

namespace Noted

open RenameService

/-! ### The phases with notes -/

/-- A rename that notes each edit that a phase has handled, and then pauses if it is time to. -/
def noting (every : Nat) : Carrier Noted :=
  ⟨ofJob, fun phase count => .note phase (ofJob (tick every count))⟩

def rename (service : RenameService) (params : Json) : Noted WorkspaceEdit :=
  (noting service.every).rename service params

theorem forget_perform {α : Type} (every : Nat) (job : Job α) :
    ((noting every).perform job).forget = job := forget_ofJob job

theorem forget_handled (every : Nat) (phase : Phase) (count : Nat) :
    ((noting every).handled phase count).forget = tick every count := forget_ofJob _

theorem forget_consume (every : Nat) (edits : List LocatedEdit) (s : Stream Step) :
    ((noting every).consume edits s).forget = (pausing every).consume edits s := by
  induction s generalizing edits with
  | done => rfl
  | raise fault => rfl
  | emit event rest ih => exact congrArg (Job.emit event) (ih edits)
  | look rest ih => exact congrArg Job.look (funext fun w => ih w edits)
  | item step rest ih =>
    cases step with
    | failure failure => rfl
    | edit e =>
      rw [Carrier.consume, forget_bind, forget_perform, forget_bind, forget_handled, ih]
      rfl

theorem forget_group (every : Nat) (map : EditMap) (count : Nat) (es : List LocatedEdit) :
    ((noting every).group map count es).forget = (pausing every).group map count es := by
  induction es generalizing map count with
  | nil => rfl
  | cons e rest ih =>
    rw [Carrier.group, group_cons]
    cases map.add e with
    | error conflict => rfl
    | ok next =>
      dsimp only
      rw [forget_bind, forget_handled, ih]
      rfl

theorem forget_convertEdits (every : Nat) (lookup : Lookup) (count : Nat) (es : List TextEdit) :
    ((noting every).convertEdits lookup count es).forget =
      (pausing every).convertEdits lookup count es := by
  induction es generalizing lookup count with
  | nil => rfl
  | cons e rest ih =>
    rw [Carrier.convertEdits, convertEdits_cons, forget_bind, forget_perform]
    refine congrArg _ (funext fun found => ?_)
    rw [forget_bind, forget_handled]
    refine congrArg _ (funext fun _ => ?_)
    rw [forget_bind, ih]
    rfl

theorem forget_convert (every : Nat) (count : Nat) (groups : List EditGroup) :
    ((noting every).convert count groups).forget = (pausing every).convert count groups := by
  induction groups generalizing count with
  | nil => rfl
  | cons g rest ih =>
    rw [Carrier.convert, convert_cons, forget_bind, forget_perform]
    refine congrArg _ (funext fun document => ?_)
    rw [forget_bind, forget_perform]
    refine congrArg _ (funext fun text => ?_)
    rw [forget_bind, forget_convertEdits]
    refine congrArg _ (funext fun edits => ?_)
    rw [forget_bind, forget_perform]
    refine congrArg _ (funext fun version => ?_)
    rw [forget_bind, ih]
    rfl

/-- Without its notes this is the rename of the service. -/
theorem forget_rename (service : RenameService) (params : Json) :
    (rename service params).forget = service.rename params := by
  rw [rename, Carrier.rename, rename_eq, forget_bind, forget_perform]
  refine congrArg _ (funext fun target => ?_)
  rw [forget_bind, forget_perform]
  refine congrArg _ (funext fun newName => ?_)
  rw [forget_bind, forget_consume]
  refine congrArg _ (funext fun drawn => ?_)
  cases drawn with
  | error failure => exact forget_perform ..
  | ok edits =>
    dsimp only
    rw [forget_bind, forget_group]
    refine congrArg _ (funext fun grouped => ?_)
    cases grouped with
    | error failure => exact forget_perform ..
    | ok map =>
      dsimp only
      rw [forget_bind, forget_perform]
      refine congrArg _ (funext fun _ => ?_)
      rw [forget_bind, forget_convert]
      rfl

/-! ### The account of each phase -/

variable {disk : Disk} {w : Workspace} {every : Nat} {a : Account}

theorem account_perform {α : Type} {job : Job α} {value : α}
    (h : job.course disk (fun _ => w) 0 = ⟨[], 0, .ok value⟩) :
    ((noting every).perform job).account disk w a = (a, .ok value) := account_ofJob h

theorem account_handle {α : Type} (phase : Phase) (count : Nat) (next : Noted α) :
    ((noting every).handled phase (count + 1) >>= fun _ => next).account disk w a =
      next.account disk w (a.handle every phase count) := by
  change (Noted.note phase (ofJob (tick every (count + 1)) >>= fun _ => next)).account disk w a = _
  rw [account, tick, Account.handle]
  split <;> rfl

/-- All edits of a stream are drawn. The messages are those of the stream. -/
theorem account_consume {es edits : List LocatedEdit} {s : Stream Step}
    (h : s.Draws w (es.map Step.edit)) :
    ((noting every).consume edits s).account disk w a =
      ((a.handleAll every .drawing edits.length es.length).send
        ((s.draw w none).events.filterMap Event.message?), .ok (.ok (edits ++ es))) := by
  obtain ⟨hitems, hfault⟩ := h
  induction s generalizing es edits a with
  | done =>
    obtain rfl := List.map_eq_nil_iff.mp hitems.symm
    rw [List.append_nil]
    exact congrArg (·, _) (Account.send_nil a).symm
  | raise fault => cases hfault
  | emit event rest ih =>
    have hmessages : (event :: (rest.draw w none).events).filterMap Event.message? =
        event.message?.toList ++ (rest.draw w none).events.filterMap Event.message? := by
      rw [List.filterMap_cons]
      cases event.message? <;> rfl
    change ((noting every).consume edits rest).account disk w (a.send event.message?.toList) = _
    rw [ih hitems hfault, Account.handleAll_send, Account.send_send, ← hmessages]
    rfl
  | look rest ih => exact ih w hitems hfault
  | item step rest ih =>
    obtain ⟨e, more, rfl, rfl, hmore⟩ := List.map_eq_cons_iff.mp hitems.symm
    have hrest := @ih (a.handle every .drawing edits.length) more (edits ++ [e]) hmore.symm hfault
    rw [List.length_append, List.append_assoc] at hrest
    rw [Carrier.consume, account_bind_of_ok (account_perform rfl), account_handle, hrest]
    rfl

theorem account_group {count : Nat} {map map' : EditMap} {es : List LocatedEdit}
    (h : es.foldlM EditMap.add map = .ok map') :
    ((noting every).group map count es).account disk w a =
      (a.handleAll every .grouping count es.length, .ok (.ok map')) := by
  induction es generalizing map count a with
  | nil =>
    obtain rfl := Except.ok.inj h
    rfl
  | cons e rest ih =>
    rw [List.foldlM_cons] at h
    obtain ⟨next, hadd, hrest⟩ := exists_of_bind_ok h
    simp only [Carrier.group, hadd]
    rw [account_handle, ih hrest]
    rfl

theorem account_convertEdits (count : Nat) {text : String} {lookup : Lookup}
    (h : lookup.Sound text) (es : List TextEdit) :
    ((noting every).convertEdits lookup count es).account disk w a =
      (a.handleAll every .converting count es.length,
        .ok (es.map (LineIndex.ofText text).edit)) := by
  induction es generalizing lookup count a with
  | nil => rfl
  | cons e rest ih =>
    obtain ⟨next, hedit, hnext⟩ := h.edit e
    rw [Carrier.convertEdits, hedit, account_bind_of_ok (account_perform (course_ofExcept (.ok _))),
      account_handle, account_bind_of_ok (ih (count + 1) hnext)]
    rfl

/-- Documents that can be fetched are converted, with one count for all of them. -/
theorem account_convert {groups : List EditGroup}
    (h : ∀ g ∈ groups, ∃ text, RenameService.fetched disk w g.uri = .ok text) :
    ∃ changes, ∀ every count a, ((noting every).convert count groups).account disk w a =
      (a.handleAll every .converting count (editCount ⟨groups⟩), .ok changes) := by
  induction groups with
  | nil => exact ⟨[], fun _ _ _ => rfl⟩
  | cons g rest ih =>
    obtain ⟨⟨text, hfetched⟩, hrest⟩ := List.forall_mem_cons.mp h
    obtain ⟨changes, hchanges⟩ := ih hrest
    obtain ⟨version, hversion⟩ := RenameService.exists_version hfetched w
    obtain ⟨d, hd, htext⟩ := exists_of_bind_ok hfetched
    have hlocate := @course_locate disk (fun _ => w) 0 g.uri
    rw [hd] at hlocate
    have hlook : (Job.look fun w => ofExcept (RenameService.versionOf w g.uri)).course disk
        (fun _ => w) 0 = ⟨[], 0, .ok version⟩ := by
      rw [course, course_ofExcept, hversion]
    -- The changes are given before the number of edits between two pauses is.
    refine ⟨⟨g.uri, version, g.edits.map (LineIndex.ofText text).edit⟩ :: changes,
      fun every count a => ?_⟩
    have hcount : editCount ⟨g :: rest⟩ = g.edits.length + editCount ⟨rest⟩ := rfl
    rw [Carrier.convert, account_bind_of_ok (account_perform hlocate), htext,
      account_bind_of_ok (account_perform (course_ofExcept (.ok text))),
      account_bind_of_ok (account_convertEdits count (Lookup.sound_ofText text) _),
      account_bind_of_ok (account_perform hlook), account_bind_of_ok (hchanges _ _ _), hcount,
      Account.handleAll_add]
    rfl

/-- A rename whose edits are grouped handles each of them in each phase. -/
theorem account_rename {renamer : Renamer} (send : Json → Job Unit) {params newName : Json}
    {source : Source} {offset : Nat} {es : List LocatedEdit} {map : EditMap}
    (htarget : (RenameService.target params).course disk (fun _ => w) 0 =
      ⟨[], 0, .ok (source, offset)⟩)
    (hname : params.need "newName" = .ok newName)
    (hdraws : (renamer.steps source offset newName).Draws w (es.map Step.edit))
    (hmap : ofList es = .ok map)
    (hfetched : ∀ g ∈ map.groups, ∃ text, RenameService.fetched disk w g.uri = .ok text) :
    ∃ edit sent, ∀ every, (rename ⟨renamer, every, send⟩ params).account disk w .empty =
      ((Account.handlePhases every es.length map.editCount).send sent, .ok edit) := by
  obtain ⟨changes, hchanges⟩ := account_convert hfetched
  refine ⟨⟨changes⟩,
    ((renamer.steps source offset newName).draw w none).events.filterMap Event.message?,
    fun every => ?_⟩
  have hreport : (report (.debug s!"Rename produced {map.editCount} edits in {map.size} documents")
      ).course disk (fun _ => w) 0 = ⟨[], 0, .ok ()⟩ := rfl
  rw [rename, Carrier.rename, account_bind_of_ok (account_perform htarget), hname,
    account_bind_of_ok (account_perform (course_ofExcept (.ok newName))),
    account_bind_of_ok (account_consume hdraws)]
  change ((noting every).group .empty 0 es >>= _).account disk w _ = _
  rw [account_bind_of_ok (account_group hmap)]
  change ((noting every).perform (report _) >>= _).account disk w _ = _
  rw [account_bind_of_ok (account_perform hreport), account_bind_of_ok (hchanges _ _ _),
    Account.handleAll_send, Account.handleAll_send]
  rfl

end Noted

namespace RenameService

/-- A rename of compatible edits in documents that can be fetched, while nobody else acts. It
pauses once for every so many edits drawn, once for every so many grouped, and once for every so
many different ones converted. Between two pauses no phase handles more edits than that. What is
changed and sent is the same for every number. -/
theorem rename_cadence {disk : Disk} {w : Workspace} {renamer : Renamer} {send : Json → Job Unit}
    {params uri newName : Json} {d : Document} {text : String} {position : Position} {offset : Nat}
    (huri : requestUri params = .ok uri) (hd : located disk w uri = .ok d)
    (htext : d.text = .str text) (hposition : requestPosition params = .ok position)
    (hoffset : position.toOffset text = .ok offset)
    (hname : params.need "newName" = .ok newName) {es : List LocatedEdit}
    (hdraws : (renamer.steps ⟨d.uri, text⟩ offset newName).Draws w (es.map Step.edit))
    (hcompatible : Compatible es)
    (hfetched : ∀ e ∈ es, ∃ text, fetched disk w e.uri = .ok text) :
    ∃ edit sent, ∀ every, 1 ≤ every →
      let service : RenameService := ⟨renamer, every, send⟩
      let job := service.rename params
      let r := job.run disk alone 0 w
      let pauses := (job.slices disk w).later.length
      let noted := Noted.rename service params
      let portions := (noted.account disk w .empty).1.portions
      r.result = .ok edit ∧ r.events.filterMap Event.message? = sent ∧
        pauses = 2 * (es.length / every) + (distinct es).length / every ∧
        noted.forget = job ∧ portions.length = pauses + 1 ∧
        (∀ portion ∈ portions, ∀ phase, portion.count phase ≤ every) ∧
        ∀ phase, portions.flatten.count phase =
          Phase.edits es.length (distinct es).length phase := by
  obtain ⟨map, hmap, hgroups⟩ := ofList_of_compatible hcompatible
  have htarget := @course_target disk (fun _ => w) params uri d text position offset 0 huri hd
    htext hposition hoffset
  have hdocuments : ∀ g ∈ map.groups, ∃ text, fetched disk w g.uri = .ok text := by
    intro g hg
    have htargets : g.uri ∈ targets es := hgroups.uris ▸ List.mem_map_of_mem hg
    obtain ⟨e, he, huri⟩ := List.mem_map.mp (mem_of_mem_eraseDupsBy htargets)
    exact huri ▸ hfetched e he
  obtain ⟨edit, sent, haccount⟩ :=
    Noted.account_rename send htarget hname hdraws hmap hdocuments
  refine ⟨edit, sent, fun every hevery => ?_⟩
  intro service job r pauses noted portions
  have hjob : noted.forget = job := Noted.forget_rename service params
  obtain ⟨hresult, hsent, hpauses⟩ := Noted.run_forget disk w noted
  rw [hjob, haccount every] at hresult hsent hpauses
  have hportions : portions =
      (Account.handlePhases every es.length (distinct es).length).portions := by
    rw [← editCount_ofList hcompatible hmap]
    exact congrArg (fun after => after.1.portions) (haccount every)
  have hpaced := Account.paced_handlePhases hevery es.length (distinct es).length
  have hcount : pauses = 2 * (es.length / every) + (distinct es).length / every := by
    rw [← editCount_ofList hcompatible hmap] at hpaced ⊢
    rw [Nat.two_mul, ← hpaced.pauses]
    exact hpauses
  refine ⟨hresult, ?_, hcount, hjob, ?_, ?_, fun phase => ?_⟩
  · rw [hsent, Account.send, Account.sent_handlePhases, List.nil_append]
  · rw [hportions, Account.portions, List.length_append, hpaced.pauses, hcount, Nat.two_mul,
      List.length_singleton]
  · rw [hportions]
    exact hpaced.bounded
  · rw [hportions]
    exact Account.total_handlePhases ..

/-- Three edits, one of them given twice, after every one of them and after every two. -/
theorem rename_cadence_repeated :
    let a : LocatedEdit := ⟨.str "a", ⟨0, 1, by decide⟩, "y"⟩
    let b : LocatedEdit := ⟨.str "b", ⟨2, 2, by decide⟩, "z"⟩
    let service (every : Nat) : RenameService :=
      ⟨Renamer.scripted "scripted" 0 none [.edit a, .edit b, .edit a], every,
        fun message => report (.sent message)⟩
    let w : Workspace :=
      ⟨[⟨.str "a", .str "x", .null, .int 1⟩, ⟨.str "b", .str "uv", .null, .int 4⟩]⟩
    let params : Json := .obj [("textDocument", .obj [("uri", .str "a")]),
      ("position", .obj [("line", .int 0), ("character", .int 0)]), ("newName", .str "y")]
    let job every := (service every).rename params
    let portions every :=
      ((Noted.rename (service every) params).account (fun _ => .absent) w .empty).1.portions
    (distinct [a, b, a]).length = 2 ∧ Compatible [a, b, a] ∧
      ((job 1).slices (fun _ => .absent) w).later.length = 8 ∧
      ((job 2).slices (fun _ => .absent) w).later.length = 3 ∧
      ((job 1).run (fun _ => .absent) alone 0 w).result =
        ((job 2).run (fun _ => .absent) alone 0 w).result ∧
      ∀ portion ∈ portions 2, portion.count .drawing ≤ 2 := by
  intro a b service w params job portions
  have hcompatible : Compatible [a, b, a] := by decide +kernel
  have hdistinct : (distinct [a, b, a]).length = 2 := by decide +kernel
  have hfetched : ∀ e ∈ [a, b, a], ∃ text, fetched (fun _ => .absent) w e.uri = .ok text :=
    List.forall_mem_cons.mpr ⟨⟨"x", rfl⟩, List.forall_mem_cons.mpr ⟨⟨"uv", rfl⟩,
      List.forall_mem_singleton.mpr ⟨"x", rfl⟩⟩⟩
  obtain ⟨edit, sent, hcadence⟩ := rename_cadence
    (show requestUri params = .ok (.str "a") from rfl)
    (show located (fun _ => .absent) w (.str "a") = .ok _ from rfl) rfl
    (show requestPosition params = .ok ⟨0, 0⟩ from rfl)
    (show Position.toOffset ⟨0, 0⟩ "x" = .ok 0 from rfl)
    (show params.need "newName" = .ok (.str "y") from rfl)
    (show ((service 1).renamer.steps _ _ _).Draws w ([a, b, a].map Step.edit) from ⟨rfl, rfl⟩)
    hcompatible hfetched
  obtain ⟨hone, -, hpauses, -⟩ := hcadence 1 (by decide)
  obtain ⟨htwo, -, hpauses', -, -, hportions, -⟩ := hcadence 2 (by decide)
  rw [hdistinct] at hpauses hpauses'
  exact ⟨hdistinct, hcompatible, hpauses.trans (by decide), hpauses'.trans (by decide),
    hone.trans htwo.symm, fun portion hportion => hportions portion hportion .drawing⟩

end RenameService

end RenameServer
