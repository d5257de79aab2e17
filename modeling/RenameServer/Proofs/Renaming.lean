import RenameServer.Proofs.Grouping
import RenameServer.Proofs.Jobs
import RenameServer.Proofs.Lookups
import RenameServer.Rename.Service

/-!
The phases of a rename, with the moments between them. The target is looked at
first, then the edits are drawn, then they are grouped, and then one document
after the other is converted: its text is looked at before its edits are
converted, its version afterwards.
-/
namespace RenameServer.RenameService

open Job

variable {disk : Disk} {world : Nat → Workspace} {p q : Nat}

/-- All edits were drawn from the stream, and no failure. -/
theorem gives_of_consume {every : Nat} {edits es : List LocatedEdit} {s : Stream Step}
    (h : ((pausing every).consume edits s).Yields disk world p q (.ok es)) :
    ∃ more, es = edits ++ more ∧ s.Gives world p q (more.map Step.edit) := by
  induction s generalizing p edits with
  | done =>
    cases h
    exact ⟨[], by rw [List.append_nil], .done _⟩
  | raise fault => cases h
  | emit event rest ih =>
    cases h with
    | emit _ h =>
      obtain ⟨more, hes, hmore⟩ := ih h
      exact ⟨more, hes, .emit event hmore⟩
  | look rest ih =>
    cases h with
    | look h =>
      obtain ⟨more, hes, hmore⟩ := ih _ h
      exact ⟨more, hes, .look hmore⟩
  | item a rest ih =>
    cases a with
    | failure f => cases h
    | edit e =>
      rw [consume_edit] at h
      cases h with
      | emit _ h =>
        obtain ⟨r, _, htick, h⟩ := h.of_bind
        obtain ⟨more, hes, hmore⟩ := ih h
        refine ⟨e :: more, ?_, .item _ htick.le hmore⟩
        rw [hes, List.append_assoc]
        rfl

theorem foldlM_of_group {every count : Nat} {map map' : EditMap} {es : List LocatedEdit}
    (h : ((pausing every).group map count es).Yields disk world p q (.ok map')) :
    es.foldlM EditMap.add map = .ok map' := by
  induction es generalizing p map count with
  | nil =>
    cases h
    rfl
  | cons e rest ih =>
    rw [group_cons] at h
    rw [List.foldlM_cons]
    cases hadd : map.add e with
    | error conflict =>
      simp only [hadd] at h
      cases h
    | ok next =>
      simp only [hadd] at h
      obtain ⟨r, _, -, h⟩ := h.of_bind
      exact ih h

theorem edits_of_convertEdits {every count : Nat} {text : String} {lookup : Lookup}
    (hlookup : lookup.Sound text) {es : List TextEdit} {out : List PositionEdit}
    (h : ((pausing every).convertEdits lookup count es).Yields disk world p q out) :
    out = es.map (LineIndex.ofText text).edit := by
  induction es generalizing p count lookup out with
  | nil =>
    cases h
    rfl
  | cons e rest ih =>
    obtain ⟨next, hedit, hnext⟩ := hlookup.edit e
    rw [convertEdits_cons, hedit] at h
    obtain ⟨_, _, hconverted, h⟩ := Yields.of_bind h
    cases hconverted
    obtain ⟨r, _, -, h⟩ := Yields.of_bind h
    obtain ⟨r', more, hmore, h⟩ := Yields.of_bind h
    cases h
    rw [List.map_cons, ih hnext hmore]

/-- What became of a group of edits between two moments. -/
structure Converted (disk : Disk) (world : Nat → Workspace) (p q : Nat) (g : EditGroup)
    (c : DocumentChange) : Prop where
  uri_eq : c.uri = g.uri
  moments : ∃ j k d text, p ≤ j ∧ j ≤ k ∧ k ≤ q ∧ located disk (world j) g.uri = .ok d ∧
    d.text = .str text ∧ c.edits = g.edits.map (LineIndex.ofText text).edit ∧
    versionOf (world k) g.uri = .ok c.version

theorem Converted.mono {r : Nat} {g : EditGroup} {c : DocumentChange}
    (h : Converted disk world r q g c) (hr : p ≤ r) : Converted disk world p q g c := by
  obtain ⟨j, k, d, text, hj, hmoments⟩ := h.moments
  exact ⟨h.uri_eq, j, k, d, text, Nat.le_trans hr hj, hmoments⟩

theorem eq_str_of_toText {use : Use} {x : Json} {text : String} (h : x.toText use = .ok text) :
    x = .str text := by
  cases x with
  | str s => rw [Except.ok.inj h]
  | _ => cases h

theorem converted_of_convert {every count : Nat} {groups : List EditGroup}
    {changes : List DocumentChange}
    (h : ((pausing every).convert count groups).Yields disk world p q changes) :
    ∀ c ∈ changes, ∃ g ∈ groups, Converted disk world p q g c := by
  induction groups generalizing p count changes with
  | nil =>
    cases h
    simp
  | cons g rest ih =>
    obtain ⟨j, d, hlocate, h⟩ := Yields.of_bind h
    obtain ⟨rfl, hd⟩ := hlocate.of_locate
    obtain ⟨_, text, hread, h⟩ := Yields.of_bind h
    obtain ⟨htext, rfl⟩ := hread.of_ofExcept
    obtain ⟨k, edits, hedits, h⟩ := Yields.of_bind h
    obtain ⟨_, version, hstamp, h⟩ := Yields.of_bind h
    obtain ⟨r, more, hmore, h⟩ := Yields.of_bind h
    cases h
    cases hstamp with
    | look hstamp =>
      obtain ⟨hversion, rfl⟩ := hstamp.of_ofExcept
      intro c hc
      rcases List.mem_cons.mp hc with rfl | hc
      · exact ⟨g, List.mem_cons_self .., rfl, p, k, d, text, Nat.le_refl p, hedits.le, hmore.le, hd,
          eq_str_of_toText htext, edits_of_convertEdits (Lookup.sound_ofText text) hedits, hversion⟩
      · obtain ⟨g', hg', hconverted⟩ := ih hmore c hc
        exact ⟨g', List.mem_cons_of_mem _ hg', hconverted.mono hedits.le⟩

/-- The URI that a request names. -/
def requestUri (params : Json) : Except Fault Json := do
  (← params.need "textDocument").need "uri"

/-- The target is found at one moment, in the document that is there. -/
theorem target_cases {params : Json} {source : Source} {offset : Nat}
    (h : (target params).Yields disk world p q (source, offset)) :
    p = q ∧ ∃ uri d, requestUri params = .ok uri ∧ located disk (world p) uri = .ok d ∧
      source.uri = d.uri ∧ d.text = .str source.text := by
  obtain ⟨_, uri, huri, h⟩ := Yields.of_bind h
  obtain ⟨hrequest, rfl⟩ := huri.of_ofExcept
  obtain ⟨_, d, hlocate, h⟩ := Yields.of_bind h
  obtain ⟨rfl, hd⟩ := hlocate.of_locate
  obtain ⟨_, o, hoffset, h⟩ := Yields.of_bind h
  obtain ⟨-, rfl⟩ := hoffset.of_ofExcept
  obtain ⟨_, text, hread, h⟩ := Yields.of_bind h
  obtain ⟨htext, rfl⟩ := hread.of_ofExcept
  cases h
  exact ⟨rfl, uri, d, hrequest, hd, rfl, eq_str_of_toText htext⟩

/-- A rename that gave edits: they were drawn from the start to some moment,
grouped, and converted before the end. -/
structure Renamed (disk : Disk) (world : Nat → Workspace) (n : Nat) (service : RenameService)
    (params : Json) (edit : WorkspaceEdit) where
  source : Source
  offset : Nat
  newName : Json
  es : List LocatedEdit
  map : EditMap
  moment : Nat
  targeted : (target params).Yields disk world 0 0 (source, offset)
  named : params.need "newName" = .ok newName
  drawn : (service.renamer.steps source offset newName).Gives world 0 moment (es.map Step.edit)
  grouped : es.foldlM EditMap.add .empty = .ok map
  converted : ∀ c ∈ edit.changes, ∃ g ∈ map.groups, Converted disk world moment n g c

theorem eq_empty_of_fail {service : RenameService} {failure : Failure} {edit : WorkspaceEdit}
    (h : (service.fail failure).Yields disk world p q edit) : edit = .empty := by
  obtain ⟨_, _, -, h⟩ := Yields.of_bind h
  obtain ⟨_, _, -, h⟩ := Yields.of_bind h
  cases h
  rfl

/-- A rename changes nothing, or it goes through all phases. -/
theorem renamed_of_rename {n : Nat} {service : RenameService} {params : Json}
    {edit : WorkspaceEdit} (h : (service.rename params).Yields disk world 0 n edit) :
    edit = .empty ∨ Nonempty (Renamed disk world n service params edit) := by
  obtain ⟨r, ⟨source, offset⟩, htarget, h⟩ := Yields.of_bind h
  obtain ⟨rfl, -⟩ := target_cases htarget
  obtain ⟨_, newName, hneed, h⟩ := Yields.of_bind h
  obtain ⟨hname, rfl⟩ := hneed.of_ofExcept
  obtain ⟨q, drawn, hdrawn, h⟩ := Yields.of_bind h
  cases drawn with
  | error failure => exact .inl (eq_empty_of_fail h)
  | ok es =>
    obtain ⟨more, hes, hgives⟩ := gives_of_consume hdrawn
    rw [List.nil_append] at hes
    obtain rfl := hes
    obtain ⟨r, grouped, hgrouped, h⟩ := Yields.of_bind h
    cases grouped with
    | error failure => exact .inl (eq_empty_of_fail h)
    | ok map =>
      obtain ⟨_, _, hreport, h⟩ := Yields.of_bind h
      obtain ⟨_, changes, hconvert, h⟩ := Yields.of_bind h
      cases h
      refine .inr ⟨source, offset, newName, es, map, q, htarget, hname, hgives,
        foldlM_of_group hgrouped, fun c hc => ?_⟩
      obtain ⟨g, hg, hconverted⟩ := converted_of_convert hconvert c hc
      exact ⟨g, hg, hconverted.mono (Nat.le_trans hgrouped.le hreport.le)⟩

/-- What the edits of one document are. -/
theorem Renamed.writtenAt {n : Nat} {service : RenameService} {params : Json}
    {edit : WorkspaceEdit} (r : Renamed disk world n service params edit)
    (hservice : service.renamer = Chain.standard) (hworld : ∀ n, (world n).Keyed) (u : String) :
    Strategy.WrittenAt world 0 r.moment r.source r.offset u (EditMap.editsAt u r.es) := by
  have hdrawn := r.drawn
  rw [hservice] at hdrawn
  obtain ⟨renamer, hrenamer, hgives⟩ := Chain.gives_steps hdrawn (by simp)
  exact Strategy.writtenAt_of_gives hworld hrenamer hgives u

/-- The entry of one document: its edits, converted in the text of one moment
and stamped at a later one. -/
theorem Renamed.entry {n : Nat} {service : RenameService} {params : Json} {edit : WorkspaceEdit}
    (r : Renamed disk world n service params edit) (hservice : service.renamer = Chain.standard)
    (hworld : ∀ n, (world n).Keyed) {c : DocumentChange} (hc : c ∈ edit.changes) {u : String}
    (hu : c.uri = .str u) :
    EditMap.editsAt u r.es ≠ [] ∧ ∃ j k d text, r.moment ≤ j ∧ j ≤ k ∧ k ≤ n ∧
      located disk (world j) (.str u) = .ok d ∧ d.text = .str text ∧
      c.edits = (EditMap.editsAt u r.es).map (LineIndex.ofText text).edit ∧
      versionOf (world k) (.str u) = .ok c.version := by
  obtain ⟨g, hg, hconverted⟩ := r.converted c hc
  obtain ⟨j, k, d, text, hj, hjk, hk, hd, htext, hedits, hversion⟩ := hconverted.moments
  have hgu : g.uri = .str u := hconverted.uri_eq.symm.trans hu
  obtain ⟨limit, hwithin⟩ := (r.writtenAt hservice hworld u).within
  obtain ⟨hsame, hsome⟩ := EditMap.edits_of_mem_groups r.grouped hwithin hg hgu
  rw [hsame] at hedits
  rw [hgu] at hd hversion
  exact ⟨hsome, j, k, d, text, hj, hjk, hk, hd, htext, hedits, hversion⟩

/-- The document of an open target, under the URI that it was opened with. -/
theorem find?_source {params uri : Json} {source : Source} {offset : Nat}
    (htarget : (target params).Yields disk world p q (source, offset)) (hw : (world p).Keyed)
    (huri : requestUri params = .ok uri) (hopen : (world p).has uri = .ok true) {u : String}
    (hu : source.uri = .str u) :
    ∃ d, (world p).find? (.str u) = some d ∧ d.text = .str source.text := by
  obtain ⟨-, uri', d, huri', hd, hsource, htext⟩ := target_cases htarget
  obtain rfl := Except.ok.inj (huri.symm.trans huri')
  exact ⟨d, hw.find?_eq (mem_of_located hd hopen) (hsource.symm.trans hu), htext⟩

/-- The edits of an entry are those of one spelling in the text that the
document had at one moment. -/
theorem Renamed.found {n : Nat} {service : RenameService} {params : Json} {edit : WorkspaceEdit}
    (r : Renamed disk world n service params edit) (hservice : service.renamer = Chain.standard)
    (hworld : ∀ n, (world n).Keyed) {uri : Json} (huri : requestUri params = .ok uri)
    (hopen : (world 0).has uri = .ok true) {u : String} (hsome : EditMap.editsAt u r.es ≠ []) :
    ∃ i d text spell, i ≤ r.moment ∧ (world i).find? (.str u) = some d ∧ d.text = .str text ∧
      Strategy.Writes r.source r.offset spell ∧
      EditMap.editsAt u r.es = Respelling.edits spell (Token.scan (Utf8.encode text)) := by
  obtain ⟨spell, hwrites, hhere, hthere⟩ := r.writtenAt hservice hworld u
  by_cases hu : r.source.uri = .str u
  · obtain ⟨d, hd, htext⟩ := find?_source r.targeted (hworld 0) huri hopen hu
    exact ⟨0, d, r.source.text, spell, Nat.zero_le _, hd, htext, hwrites, hhere hu⟩
  · rcases hthere hu with hnil | ⟨i, d, text, -, hi, hd, htext, hes⟩
    · exact absurd hnil hsome
    · exact ⟨i, d, text, spell, hi, hd, htext, hwrites, hes⟩

/-- Does a rename give an entry of some kind? -/
def hasEntry (result : Except Fault WorkspaceEdit) (kind : DocumentChange → Bool) : Bool :=
  match result with
  | .ok edit => edit.changes.any kind
  | .error _ => false

theorem exists_entry {result : Except Fault WorkspaceEdit} {kind : DocumentChange → Bool}
    (h : hasEntry result kind = true) :
    ∃ edit c, result = .ok edit ∧ c ∈ edit.changes ∧ kind c = true := by
  cases result with
  | error fault => cases h
  | ok edit =>
    obtain ⟨c, hc, hkind⟩ := List.any_eq_true.mp h
    exact ⟨edit, c, rfl, hc, hkind⟩

end RenameServer.RenameService
