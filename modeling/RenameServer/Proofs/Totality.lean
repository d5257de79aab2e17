import RenameServer.Proofs.Answerable
import RenameServer.Proofs.Settling

/-!
Requests that come to a result. As long as all documents have texts and none is
closed, a document that was open when its edits were drawn is open when they are
converted, and there every offset has a position, whatever the text has become.
So a well-formed request has a result unless a text is to be encoded in which half
of a surrogate pair stands alone, and that is the only thing that can stop it.
-/
namespace RenameServer

namespace RenameService

open Job

variable {allowed : Str → Prop} {expected : Fault → Prop} {disk : Disk} {world : Nat → Workspace}
  {p every : Nat}

/-- All edits of a safe stream can be drawn, and their documents are open then. -/
theorem settles_consume (hworld : Steady allowed world) {edits : List LocatedEdit}
    (hedits : ∀ e ∈ edits, e.uri.key? ∈ (world p).keys) {s : Stream Step}
    (hs : s.Safe world expected (Step.Open world) p) :
    ((pausing every).consume edits s).Settles disk world expected
      (fun q drawn => Fitting (fun uri => uri.key? ∈ (world q).keys) drawn) p := by
  induction s generalizing p edits with
  | done => exact hedits
  | raise fault => exact hs
  | emit event rest ih => exact ih hedits hs
  | look rest ih => exact ih (world p) hedits (hs p (Nat.le_refl p))
  | item step rest ih =>
    cases step with
    | failure f => exact hs.1
    | edit e =>
      have htick : (tick every (edits.length + 1)).Settles disk world expected
          (fun _ _ => True) p := by
        rw [tick]
        split <;> trivial
      refine htick.bind fun q _ hq _ => ?_
      -- others may act here, and what is open stays open
      have hall : ∀ d ∈ edits ++ [e], d.uri.key? ∈ (world q).keys := by
        intro d hd
        rcases List.mem_append.mp hd with hd | hd
        · exact hworld.keys_subset hq.le (hedits d hd)
        · rw [List.mem_singleton.mp hd]
          exact hworld.keys_subset hq.le hs.1
      exact ih hall (hs.2.mono (Step.Open.mono hworld) hq.le)

/-- Groups of open documents can be converted, whatever their texts have become. -/
theorem settles_convert (hworld : Steady allowed world) (base count : Nat)
    {groups : List EditGroup}
    (hgroups : ∀ g ∈ groups, g.uri.key? ∈ (world (base + count / every)).keys) :
    ((pausing every).convert count groups).Settles disk world (Fault.Allowed allowed)
      (fun _ _ => True) (base + count / every) := by
  induction groups generalizing count with
  | nil => trivial
  | cons g rest ih =>
    obtain ⟨hg, hrest⟩ := List.forall_mem_cons.mp hgroups
    have htextual := hworld.textual (base + count / every)
    obtain ⟨d, -, hd⟩ := htextual.exists_get hg
    rw [convert_cons]
    refine (settles_locate hd).bind ?_
    rintro _ _ - ⟨rfl, rfl⟩
    refine (settles_toText (htextual.get hd) _).bind ?_
    rintro _ text - ⟨rfl, -⟩
    have hcourse := @course_convertEdits disk world every base count text _
      (Lookup.sound_ofText text) g.edits
    refine (settles_course (congrArg Course.result hcourse)).bind ?_
    rintro q _ hedits ⟨hq, rfl⟩
    rw [hcourse] at hq
    -- the text may be another one by now, but a version is still there
    have hlater := hworld.keys_subset hedits.le
    obtain ⟨d', hhas, hget⟩ := (hworld.textual q).exists_get (hlater hg)
    have hversion : versionOf (world q) g.uri = .ok d'.version := by
      rw [versionOf, hhas, hget]
      rfl
    have hlook : (Job.look fun w => ofExcept (versionOf w g.uri)).Settles disk world
        (Fault.Allowed allowed) (fun r _ => r = q) q := by
      simp only [Settles, hversion]
      rfl
    refine hlook.bind ?_
    rintro q version - rfl
    obtain rfl : q = base + (count + g.edits.length) / every := hq
    exact (ih (count + g.edits.length) fun g' hg' => hlater (hrest g' hg')).bind
      fun _ _ _ _ => trivial

/-! ### What a request is about -/

/-- The parameters of a request name an open document and point at a position without
negative numbers. -/
structure Pointing (w : Workspace) (params : Json) (d : Document) (position : Position) :
    Prop where
  document : ∃ u : Str, requestUri params = .ok (.ofStr u) ∧ w.get (.ofStr u) = .ok d
  place : requestPosition params = .ok position
  line : 0 ≤ position.line
  character : 0 ≤ position.character

/-- The document as a source, and the position as an offset. -/
structure Pointed (d : Document) (position : Position) (found : Source × Nat) : Prop where
  uri : found.1.uri = d.uri
  text : d.text = .str found.1.text
  offset : position.toOffset found.1.text = .ok found.2

theorem Pointed.textIn {d : Document} {position : Position} {found : Source × Nat}
    (h : Pointed d position found) : d.text.TextIn Str.IsPlain :=
  ⟨.plain found.1.text, ⟨_, rfl⟩, h.text⟩

theorem Pointed.unique {d : Document} {position : Position} {found other : Source × Nat}
    (h : Pointed d position found) (hother : Pointed d position other) : found = other := by
  obtain ⟨⟨uri, text⟩, offset⟩ := found
  obtain ⟨⟨uri', text'⟩, offset'⟩ := other
  obtain rfl := Json.str.inj (h.text.symm.trans hother.text)
  obtain rfl := Except.ok.inj (h.offset.symm.trans hother.offset)
  obtain rfl : uri = uri' := h.uri.trans hother.uri.symm
  rfl

theorem exists_toOffset {position : Position} (hline : 0 ≤ position.line)
    (hcharacter : 0 ≤ position.character) (text : String) :
    ∃ offset, position.toOffset text = .ok offset := by
  rw [Position.toOffset, if_neg (by omega)]
  exact ⟨_, rfl⟩

variable {params : Json} {d : Document} {position : Position}

/-- A position is found in a text, as far as that can be encoded. -/
theorem settles_offset (hline : 0 ≤ position.line) (hcharacter : 0 ≤ position.character)
    {value : Json} (hvalue : value.TextIn allowed) :
    (ofExcept (position.offsetInText value)).Settles disk world (Fault.Allowed allowed)
      (fun q offset => q = p ∧ ∀ text, value = .str text → position.toOffset text = .ok offset)
      p := by
  obtain ⟨text, hallowed, rfl⟩ := hvalue
  cases text with
  | plain text =>
    obtain ⟨offset, hoffset⟩ := exists_toOffset hline hcharacter text
    have hfound : position.offsetInText (.ofStr (.plain text)) = .ok offset := hoffset
    rw [hfound]
    refine ⟨rfl, fun text' heq => ?_⟩
    rw [← Json.str.inj heq, hoffset]
  | ragged r =>
    have hraised : ∀ half place count,
        (Fault.unencodable half place count).Allowed allowed :=
      fun half place count => ⟨⟨half, place, count, rfl⟩, r, hallowed⟩
    obtain ⟨offset, hoffset⟩ := exists_toOffset hline hcharacter r.before
    simp only [Json.ofStr, Position.offsetInText, Position.offsetInRagged, hoffset, bind,
      Except.bind]
    generalize (Position.lines r.before.toList).length -
      (if Position.lastLine r.before.toList = [] then 0 else 1) = ended
    split
    · refine ⟨rfl, fun text heq => ?_⟩
      cases heq
    · split
      · exact hraised ..
      · exact hraised ..

theorem settles_target (h : Pointing (world p) params d position)
    (htext : d.text.TextIn allowed) :
    (target params).Settles disk world (Fault.Allowed allowed)
      (fun q found => q = p ∧ Pointed d position found) p := by
  obtain ⟨u, huri, hd⟩ := h.document
  have hrequest : (params.need "textDocument" >>= fun x => x.need "uri") = .ok (.ofStr u) := huri
  have hplace : (params.need "position" >>= fun x => Position.ofJson x >>= fun position =>
      position.offsetInText d.text) = position.offsetInText d.text := by
    have hposition : (params.need "position" >>= Position.ofJson) = .ok position := h.place
    rw [← bind_assoc, hposition]
    rfl
  refine (settles_ofExcept hrequest).bind ?_
  rintro _ _ - ⟨rfl, rfl⟩
  refine (settles_locate hd).bind ?_
  rintro _ _ - ⟨rfl, rfl⟩
  rw [hplace]
  refine (settles_offset h.line h.character htext).bind ?_
  rintro _ offset - ⟨rfl, hoffset⟩
  refine (settles_toText htext _).bind ?_
  rintro _ text - ⟨rfl, hstr⟩
  exact ⟨rfl, rfl, hstr, hoffset text hstr⟩

/-- A request to prepare a rename is answered from the document that it names. -/
theorem settles_prepare (service : RenameService) (h : Pointing (world p) params d position)
    (htext : d.text.TextIn allowed) :
    (service.prepare params).Settles disk world (Fault.Allowed allowed)
      (fun _ answer => ∃ found, Pointed d position found ∧
        answer = prepared service.renamer found.1 found.2) p := by
  refine (settles_target h htext).bind ?_
  rintro _ ⟨source, offset⟩ - ⟨rfl, hfound⟩
  dsimp only
  split
  · next hnone => exact ⟨_, hfound, by simp only [prepared, hnone]⟩
  · next range hrange =>
    rw [PositionRange.ofBytes_eq]
    exact ⟨_, hfound, by simp only [prepared, hrange]⟩

theorem prepared_eq_null_iff {renamer : Renamer} {source : Source} {offset : Nat} :
    prepared renamer source offset = .null ↔ renamer.range? source offset = none := by
  rw [prepared]
  split
  · next hnone => exact iff_of_true rfl hnone
  · next range hrange =>
    refine iff_of_false ?_ (by rw [hrange]; exact Option.some_ne_none range)
    exact fun hnull => Json.noConfusion hnull

/-! ### Renaming -/

/-- A text that can be encoded is shown to the client at any time. -/
def Shows (service : RenameService) (disk : Disk) : Prop :=
  ∀ (text : String) schedule p w,
    ((service.send (Message.showError (.plain text))).run disk schedule p w).result = .ok ()

theorem shows_send {host : Host} {depth : Nat} (h : host.Allows depth) (renamer : Renamer)
    (every : Nat) (disk : Disk) : Shows ⟨renamer, every, Server.send host true⟩ disk :=
  fun text schedule p _ => Server.result_send (Server.outgoing_showError (.plain text))
    (Server.sendable_showError h text) schedule p

variable {service : RenameService} {schedule : Schedule} {w : Workspace} {newName : Str}

theorem settles_fail (hsend : service.Shows disk) {failure : Failure}
    (h : ∃ text, failure.message = .plain text) :
    (service.fail failure).Settles disk (worlds schedule w) expected (fun _ _ => True) p := by
  obtain ⟨text, htext⟩ := h
  have hshown := hsend text schedule p (worlds schedule w p)
  rw [← htext, (run_course ..).1] at hshown
  exact (settles_course hshown).bind fun _ _ _ _ => trivial

/-- What is done with the edits that were drawn. -/
def conclude (service : RenameService) : Except Failure (List LocatedEdit) → Job WorkspaceEdit
  | .error failure => service.fail failure
  | .ok edits => do
    match ← (pausing service.every).group .empty 0 edits with
    | .error failure => service.fail failure
    | .ok map =>
      report (.debug s!"Rename produced {map.editCount} edits in {map.size} documents")
      return ⟨← (pausing service.every).convert 0 map.groups⟩

/-- A rename that points at a document draws edits from it. -/
theorem settles_rename_of {R : Nat → WorkspaceEdit → Prop} {newName : Json}
    (hpointing : Pointing (world p) params d position) (htext : d.text.TextIn allowed)
    (hname : params.need "newName" = .ok newName)
    (h : ∀ found, Pointed d position found →
      ((pausing service.every).consume [] (service.renamer.steps found.1 found.2 newName) >>=
        service.conclude).Settles disk world (Fault.Allowed allowed) R p) :
    (service.rename params).Settles disk world (Fault.Allowed allowed) R p := by
  refine (settles_target hpointing htext).bind ?_
  rintro _ ⟨source, offset⟩ - ⟨rfl, hfound⟩
  refine (settles_ofExcept hname).bind ?_
  rintro _ _ - ⟨rfl, rfl⟩
  exact h _ hfound

section

variable (hservice : service.renamer = Chain.standard) (hsend : service.Shows disk)
variable (hpointing : Pointing w params d position)

include hservice hsend hpointing

/-- A rename comes to its end, unless it meets a text that cannot be encoded. -/
theorem settles_rename (hworld : Steady allowed (worlds schedule w)) (hdistinct : w.Distinct)
    (hname : params.need "newName" = .ok (.ofStr newName)) (hallowed : allowed newName) :
    (service.rename params).Settles disk (worlds schedule w) (Fault.Allowed allowed)
      (fun _ _ => True) 0 := by
  obtain ⟨u, -, hd⟩ := hpointing.document
  have hopen := Workspace.mem_keys_of_get hd
  have huri : d.uri = .ofStr u := Json.eq_ofStr_of_key? (Workspace.has_of_get hd).2
  refine settles_rename_of hpointing ((hworld.textual 0).get hd) hname fun found hfound => ?_
  have hsource : found.1.uri = .ofStr u := hfound.uri.trans huri
  refine (settles_consume hworld (List.forall_mem_nil _) ?_).bind ?_
  · rw [hservice]
    exact Chain.safe_standard hworld (hsource ▸ hopen) _ hallowed
  rintro q (failure | es) hdrawn hfitting
  · exact settles_fail hsend hfitting
  -- the edits never meet, so grouping them cannot fail
  obtain ⟨more, hmore, hgives⟩ := gives_of_consume hdrawn
  obtain rfl : es = more := hmore
  have hseparate : Separate es := by
    have hedits : (es.map Step.edit).filterMap Step.edit? = es :=
      (Step.filterMap_edit? id es).trans (List.map_id es)
    rw [← hedits]
    exact separate_of_gives (Workspace.distinct_worlds hdistinct) hsource (hservice ▸ hgives)
  obtain ⟨map, hmap, -⟩ := hseparate.exists_groups
  have hgroups := (uri_of_foldlM_add (p := fun uri => uri.key? ∈ (worlds schedule w q).keys)
    hfitting (List.forall_mem_nil _)).2 map hmap
  have hcourse := @course_group_ok disk (worlds schedule w) service.every q 0 _ _ _ hmap
  rw [Nat.zero_div, Nat.add_zero] at hcourse
  refine (settles_course (congrArg Course.result hcourse)).bind ?_
  rintro r _ hr ⟨-, rfl⟩
  have hconvert := @settles_convert allowed disk (worlds schedule w) service.every hworld r 0
    map.groups
  rw [Nat.zero_div, Nat.add_zero] at hconvert
  exact (hconvert fun g hg => hworld.keys_subset hr.le (hgroups g hg)).bind fun _ _ _ _ => trivial

/-- Where there is nothing to rename, that is shown to the client. -/
theorem settles_rename_none {found : Source × Nat} (hfound : Pointed d position found)
    (hnone : Chain.standard.range? found.1 found.2 = none)
    {newName : Json} (hname : params.need "newName" = .ok newName) :
    (service.rename params).Settles disk (worlds schedule w) (Fault.Allowed Str.IsPlain)
      (fun _ _ => True) 0 := by
  refine settles_rename_of hpointing hfound.textIn hname fun other hother => ?_
  obtain rfl := hfound.unique hother
  obtain ⟨failure, hsteps, -, hplain⟩ := Chain.steps_of_range?_none hnone newName
  rw [hservice, hsteps]
  exact settles_fail hsend hplain

/-- Where there is something to rename, a new name that cannot be encoded is a fault. -/
theorem settles_rename_ragged (htext : d.text.TextIn fun _ => True) {r : Ragged}
    (hname : params.need "newName" = .ok (.ragged r)) :
    (service.rename params).Settles disk (worlds schedule w) (Fault.Allowed fun _ => True)
      (fun _ _ => ∃ found, Pointed d position found ∧
        Chain.standard.range? found.1 found.2 = none) 0 := by
  refine settles_rename_of hpointing htext hname fun found hfound => ?_
  rw [hservice]
  cases hrange : Chain.standard.range? found.1 found.2 with
  | none =>
    obtain ⟨failure, hsteps, -, hplain⟩ := Chain.steps_of_range?_none hrange (.ragged r)
    rw [hsteps]
    refine (settles_fail hsend hplain).imp fun _ _ _ => ⟨found, hfound, hrange⟩
  | some range =>
    obtain ⟨fault, hsteps, hfault⟩ := Chain.steps_of_ragged hrange r
    rw [hsteps]
    exact ⟨hfault, r, trivial⟩

end

/-- Requests about an open document, whatever texts are opened, updated or changed at the
pauses. Nothing but a text that cannot be encoded stops them. To prepare a rename has a
result exactly if the text of the document can be encoded. To rename has one if all texts
and the new name can be encoded; with a new name that cannot be, it has one exactly where
there is nothing to rename. -/
theorem requests_return (hservice : service.renamer = Chain.standard) (hsend : service.Shows disk)
    (hdistinct : w.Distinct) (hw : w.Textual fun _ => True)
    (hschedule : ∀ n, ∀ op ∈ schedule n, op.Textual fun _ => True)
    (hpointing : Pointing w params d position) :
    let prepared := ((service.prepare params).run disk schedule 0 w).result
    (∀ fault, prepared = .error fault → fault.IsUnencodable) ∧
      ((∃ answer, prepared = .ok answer) ↔ d.text.TextIn Str.IsPlain) ∧
      ∀ newName : Str, params.need "newName" = .ok (.ofStr newName) →
        let renamed := ((service.rename params).run disk schedule 0 w).result
        (∀ fault, renamed = .error fault → fault.IsUnencodable) ∧
          (newName.IsPlain → w.Textual Str.IsPlain →
            (∀ n, ∀ op ∈ schedule n, op.Textual Str.IsPlain) → ∃ edit, renamed = .ok edit) ∧
          (¬newName.IsPlain → ((∃ edit, renamed = .ok edit) ↔ prepared = .ok .null)) := by
  intro prepared
  obtain ⟨u, -, hd⟩ := hpointing.document
  have hany := hw.get hd
  have hprepare : ∀ {allowed}, d.text.TextIn allowed →
      (service.prepare params).Settles disk (worlds schedule w) (Fault.Allowed allowed)
        (fun _ answer => ∃ found, Pointed d position found ∧
          answer = RenameService.prepared service.renamer found.1 found.2) 0 :=
    settles_prepare service hpointing
  refine ⟨fun fault hfault => ((hprepare hany).of_error hfault).1, ⟨fun hanswer => ?_, fun hplain =>
    (hprepare hplain).exists_ok⟩, fun newName hname => ⟨fun fault hfault => ?_, ?_, ?_⟩⟩
  · obtain ⟨answer, hanswer⟩ := hanswer
    obtain ⟨-, found, hfound, -⟩ := (hprepare hany).of_ok hanswer
    exact hfound.textIn
  · have hworld : Steady (fun _ => True) (worlds schedule w) :=
      Steady.worlds (fun _ => trivial) hw hschedule
    have hrename := settles_rename hservice hsend hpointing hworld hdistinct hname trivial
    exact (hrename.of_error hfault).1
  · intro hplain hw hschedule
    have hworld := Steady.worlds (fun text => ⟨text, rfl⟩) hw hschedule
    exact (settles_rename hservice hsend hpointing hworld hdistinct hname hplain).exists_ok
  · intro hragged
    obtain ⟨r, rfl⟩ : ∃ r, newName = .ragged r := by
      cases newName with
      | plain text => exact absurd ⟨text, rfl⟩ hragged
      | ragged r => exact ⟨r, rfl⟩
    constructor
    · rintro ⟨edit, hedit⟩
      obtain ⟨-, found, hfound, hnone⟩ :=
        (settles_rename_ragged hservice hsend hpointing hany hname).of_ok hedit
      obtain ⟨answer, hanswer⟩ := (hprepare hfound.textIn).exists_ok
      obtain ⟨-, other, hother, rfl⟩ := (hprepare hany).of_ok hanswer
      obtain rfl := hfound.unique hother
      rw [hservice, prepared_eq_null_iff.mpr hnone] at hanswer
      exact hanswer
    · intro hnull
      obtain ⟨-, found, hfound, hanswer⟩ := (hprepare hany).of_ok hnull
      rw [hservice] at hanswer
      exact (settles_rename_none hservice hsend hpointing hfound
        (prepared_eq_null_iff.mp hanswer.symm) hname).exists_ok

/-- The text is gone when its edits are converted. -/
theorem requests_return_shrunk :
    let service : RenameService := ⟨Chain.standard, 1, Server.send .usual true⟩
    let w : Workspace := ⟨[⟨.str "a", .str "é $a = 𝄞($a);", .null, .int 1⟩]⟩
    let schedule : Schedule := fun n =>
      if n = 2 then [.update (.str "a") (.str "") (.int 2)] else []
    let params : Json := .obj [("textDocument", .obj [("uri", .str "a")]),
      ("position", .obj [("line", .int 0), ("character", .int 3)]), ("newName", .str "b")]
    (∃ answer, ((service.prepare params).run (fun _ => .absent) schedule 0 w).result = .ok answer) ∧
      ∃ edit, ((service.rename params).run (fun _ => .absent) schedule 0 w).result = .ok edit := by
  intro service w schedule params
  have hw : ∀ {allowed : Str → Prop}, (∀ text, allowed (.plain text)) → w.Textual allowed := by
    intro allowed hplain d hd
    rw [List.mem_singleton.mp hd]
    exact ⟨⟨_, rfl⟩, .plain _, hplain _, rfl⟩
  have hschedule : ∀ {allowed : Str → Prop}, (∀ text, allowed (.plain text)) →
      ∀ n, ∀ op ∈ schedule n, op.Textual allowed := by
    intro allowed hplain n op hop
    simp only [schedule] at hop
    split at hop
    · rw [List.mem_singleton.mp hop]
      exact ⟨.plain "", hplain "", rfl⟩
    · cases hop
  have hplain : ∀ text, (Str.plain text).IsPlain := fun text => ⟨text, rfl⟩
  have hdistinct : w.Distinct := List.nodup_singleton _
  have hpointing : Pointing w params ⟨.str "a", .str "é $a = 𝄞($a);", .null, .int 1⟩ ⟨0, 3⟩ :=
    ⟨⟨.plain "a", rfl, rfl⟩, rfl, by decide, by decide⟩
  obtain ⟨-, hprepare, hrename⟩ := requests_return rfl (shows_send Host.allows_usual _ _ _)
    hdistinct (hw fun _ => trivial) (hschedule fun _ => trivial) hpointing
  exact ⟨hprepare.mpr ⟨.plain _, hplain _, rfl⟩,
    (hrename (.plain "b") rfl).2.1 (hplain "b") (hw hplain) (hschedule hplain)⟩

/-- Half of a surrogate pair as the new name of a variable: the client is not told that this is
no valid name, a fault stops the request. -/
theorem request_stopped_by_half :
    let service : RenameService := ⟨Chain.standard, 10, Server.send .usual true⟩
    let d : Document := ⟨.str "a", .str "$a;", .null, .int 1⟩
    let newName : Str := .ragged ⟨"", ⟨0xd800, by decide, by decide⟩, []⟩
    let params : Json := .obj [("textDocument", .obj [("uri", .str "a")]),
      ("position", .obj [("line", .int 0), ("character", .int 1)]), ("newName", .ofStr newName)]
    Workspace.Textual (fun _ => True) ⟨[d]⟩ ∧ Pointing ⟨[d]⟩ params d ⟨0, 1⟩ ∧
      params.need "newName" = .ok (.ofStr newName) ∧
      ¬∃ edit,
        ((service.rename params).run (fun _ => .absent) alone 0 ⟨[d]⟩).result = .ok edit := by
  intro service d newName params
  refine ⟨?_, ⟨⟨.plain "a", rfl, rfl⟩, rfl, by decide, by decide⟩, rfl, ?_⟩
  · intro d hd
    rw [List.mem_singleton.mp hd]
    exact ⟨⟨_, rfl⟩, .plain _, trivial, rfl⟩
  · rintro ⟨edit, hedit⟩
    have hnone : ((service.rename params).run (fun _ => .absent) alone 0
        ⟨[d]⟩).result.toOption.isNone = true := by decide +kernel
    rw [hedit] at hnone
    cases hnone

end RenameService

end RenameServer
