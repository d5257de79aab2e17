import RenameServer.Proofs.MovedSources
import RenameServer.Proofs.Snapshots
import RenameServer.Proofs.Translation

/-!
A document that is open and the file that holds the same text. The file is read
with line feeds for all line ends, so its tokens are those of the open document
at other offsets, but at the same positions. Requests about the document get the
same answers while it is open and when it is not, up to the version of its entry.
-/
namespace RenameServer

open LineEnd
open Document (unixLines)

/-! ### The workspace without the document -/

namespace Workspace

variable {w closed : Workspace} {u : String}

theorem documents_of_close (h : w.closeDocument (.str u) = .ok closed) :
    closed.documents = w.documents.eraseP fun d => d.uri.sameKey (.str u) := by
  obtain rfl := Except.ok.inj h
  rfl

/-- The document at a URI is the first one that goes. -/
theorem eraseP_cons_same {d : Document} (hd : d.uri = .str u) (rest : List Document) :
    (d :: rest).eraseP (fun e => e.uri.sameKey (.str u)) = rest :=
  List.eraseP_cons_of_pos (Json.sameKey_str.mpr hd)

theorem eraseP_cons_other {d : Document} (hd : d.uri ≠ .str u) (rest : List Document) :
    (d :: rest).eraseP (fun e => e.uri.sameKey (.str u)) =
      d :: rest.eraseP fun e => e.uri.sameKey (.str u) :=
  List.eraseP_cons_of_neg (mt Json.sameKey_str.mp hd)

/-- Other documents are looked up as before. -/
theorem find?_of_close (h : w.closeDocument (.str u) = .ok closed) {key : Json}
    (hkey : key ≠ .str u) : closed.find? key = w.find? key := by
  rw [find?, find?, documents_of_close h]
  clear h
  induction w.documents with
  | nil => rfl
  | cons d rest ih =>
    by_cases hd : d.uri = .str u
    · have hother : ¬ d.uri.sameKey key = true := by
        rw [hd]
        exact fun hsame => hkey (Json.str_sameKey.mp hsame)
      rw [eraseP_cons_same hd]
      exact (List.find?_cons_of_neg (p := fun e : Document => e.uri.sameKey key) hother).symm
    · rw [eraseP_cons_other hd, List.find?_cons, List.find?_cons, ih]

theorem Keyed.find?_of_close (hw : w.Keyed) (h : w.closeDocument (.str u) = .ok closed) :
    closed.find? (.str u) = none := by
  rw [find?, documents_of_close h, List.find?_eq_none]
  clear h
  unfold Keyed at hw
  generalize w.documents = documents at hw
  induction documents with
  | nil => exact List.forall_mem_nil _
  | cons d rest ih =>
    obtain ⟨hfirst, hrest⟩ := List.pairwise_cons.mp hw
    by_cases hd : d.uri = .str u
    · rw [eraseP_cons_same hd]
      intro e he hsame
      exact hfirst e he u ⟨hd, Json.sameKey_str.mp hsame⟩
    · rw [eraseP_cons_other hd]
      exact List.forall_mem_cons.mpr ⟨mt Json.sameKey_str.mp hd, ih hrest⟩

theorem asKey_cases (uri : Json) : uri.asKey = .ok uri ∨ ∃ fault, uri.asKey = .error fault := by
  cases uri with
  | arr items => exact .inr ⟨_, rfl⟩
  | obj fields => exact .inr ⟨_, rfl⟩
  | _ => exact .inl rfl

theorem has_of_close (h : w.closeDocument (.str u) = .ok closed) {uri : Json}
    (huri : uri ≠ .str u) : closed.has uri = w.has uri := by
  rcases asKey_cases uri with hkey | ⟨fault, hkey⟩
  · rw [has_of_asKey hkey, has_of_asKey hkey, find?_of_close h huri]
  · rw [has, has, hkey]
    rfl

theorem get_of_close (h : w.closeDocument (.str u) = .ok closed) {uri : Json}
    (huri : uri ≠ .str u) : closed.get uri = w.get uri := by
  rcases asKey_cases uri with hkey | ⟨fault, hkey⟩
  · rw [get_of_asKey hkey, get_of_asKey hkey, find?_of_close h huri]
  · rw [get, get, hkey]
    rfl

end Workspace

/-- The document of the cursor is skipped anyway. -/
theorem Reference.elsewhere_close {w closed : Workspace} {u : String}
    (h : w.closeDocument (.str u) = .ok closed) (spelling : Utf8.Bytes) :
    elsewhere (.str u) spelling w.documents = elsewhere (.str u) spelling closed.documents := by
  rw [Workspace.documents_of_close h]
  clear h
  induction w.documents with
  | nil => rfl
  | cons d rest ih =>
    by_cases hd : d.uri = .str u
    · rw [Workspace.eraseP_cons_same hd, elsewhere, if_pos (Json.same_str.mpr hd)]
    · have hother := mt Json.same_str.mp hd
      rw [Workspace.eraseP_cons_other hd, elsewhere, elsewhere, if_neg hother, if_neg hother, ih]

/-! ### The text of a file -/

/-- What is read from a file that holds a text. -/
def Document.asRead (text : String) : String := String.ofList (unixLines text.toList)

open Document (asRead)

theorem Utf8.encode_asRead (text : String) :
    Utf8.encode (asRead text) = unix (Utf8.encode text) := by
  rw [asRead, encode_ofList, encodeChars_unixLines, encode_eq_encodeChars]

/-- The tokens of a text are those that are read, moved. -/
theorem Source.moves_asRead (uri : Json) (text : String) :
    Moves (place (Utf8.encode text)) ⟨uri, asRead text⟩ ⟨uri, text⟩ := by
  have hread : Source.tokens ⟨uri, asRead text⟩ = Token.scan (unix (Utf8.encode text)) := by
    rw [Source.tokens, Utf8.encode_asRead]
  refine ⟨place_strictMono _, rfl, ?_, ?_⟩
  · rw [hread]
    exact scan_unix (Utf8.encode text)
  · intro t ht
    rw [hread] at ht
    exact place_stop ht

/-- A position is at the same place in both texts, or in neither. -/
theorem Position.toOffset_asRead (p : Position) (text : String) :
    p.toOffset text = (p.toOffset (asRead text)).map (place (Utf8.encode text)) := by
  unfold toOffset
  split
  · rfl
  · have hplace := offsetIn_place text.toList p.line.toNat p.character.toNat
    rw [asRead, String.toList_ofList]
    exact congrArg Except.ok hplace.symm

/-- The range of a variable or a name. -/
def Source.Names (s : Source) (r : ByteRange) : Prop :=
  ∃ t ∈ s.tokens, t.kind ≠ .punct ∧ t.range = r

/-- Its positions are the same in both texts. -/
theorem Source.Names.range_asRead {uri : Json} {text : String} {r : ByteRange}
    (h : Names ⟨uri, asRead text⟩ r) :
    (LineIndex.ofText text).range (r.moved (place_strictMono (Utf8.encode text))) =
      (LineIndex.ofText (asRead text)).range r := by
  obtain ⟨t, ht, hkind, rfl⟩ := h
  have hmoved := (moves_asRead uri text).range_move ht
  rw [Source.tokens, Utf8.encode_asRead, Utf8.encode_eq_encodeChars] at ht
  have hrange := range_place ht hkind
  rw [String.ofList_toList] at hrange
  rw [← hmoved]
  exact hrange

/-! ### The answers -/

/-- A change with another version, if it is one of a certain document. -/
def DocumentChange.stampedAt (u : String) (version : Json) (c : DocumentChange) : DocumentChange :=
  if c.uri.same (.str u) then ⟨c.uri, version, c.edits⟩ else c

def WorkspaceEdit.stampedAt (u : String) (version : Json) (e : WorkspaceEdit) : WorkspaceEdit :=
  ⟨e.changes.map (DocumentChange.stampedAt u version)⟩

namespace RenameService

open Job

/-- What may be renamed is a variable or a name. -/
theorem names_of_range? {s : Source} {offset : Int} {r : ByteRange}
    (h : Chain.standard.range? s offset = some r) : s.Names r := by
  rw [Chain.range?_standard, Option.or_eq_some_iff] at h
  rcases h with hvariable | ⟨-, hreference⟩
  · obtain ⟨t, hat, -, rfl⟩ := Chain.exists_of_range? hvariable
    obtain ⟨hkind, ht⟩ := Strategy.kind_of_at? hat
    exact ⟨t, ht, by rw [hkind]; decide, rfl⟩
  · unfold Reference.range? at hreference
    split at hreference
    · next t hat =>
      obtain ⟨hkind, ht⟩ := Strategy.kind_of_at? hat
      split at hreference
      · cases hreference
      · exact ⟨t, ht, by rw [hkind]; decide, Option.some.inj hreference⟩
    · cases hreference

/-- What is renamed in the document of the cursor are variables or names. -/
theorem names_of_grouped {w : Workspace} (hw : w.Keyed) {s : Source} {offset : Int}
    {newName : Json} {map : EditMap}
    {shown : Str → Except Fault Unit}
    (h : grouped shown ((Chain.standard.steps s offset newName).draw w none) = .ok (some map))
    {u : String} (hu : s.uri = .str u) {g : EditGroup} (hg : g ∈ map.groups)
    (hgu : g.uri = .str u) : ∀ e ∈ g.edits, s.Names e.range := by
  obtain ⟨es, hitems, hfold⟩ := edits_of_grouped h
  have hgives := Stream.gives_draw w (Chain.standard.steps s offset newName)
  rw [hitems] at hgives
  obtain ⟨renamer, hrenamer, hsteps⟩ := Chain.gives_steps hgives (by simp)
  have hwritten := Strategy.writtenAt_of_gives (fun _ => hw) hrenamer hsteps u
  obtain ⟨limit, hwithin⟩ := hwritten.within
  obtain ⟨hedits, -⟩ := EditMap.edits_of_mem_groups hfold hwithin hg hgu
  obtain ⟨spell, hwrites, hhere, -⟩ := hwritten
  intro e he
  rw [hedits] at he
  change e ∈ Step.editsAt u (es.map Step.edit) at he
  rw [hhere hu] at he
  obtain ⟨t, ht, hspell⟩ := List.mem_filterMap.mp he
  obtain ⟨name, hname, rfl⟩ := Option.map_eq_some_iff.mp hspell
  exact ⟨t, ht, (hwrites.safe.keepsKinds t name hname).1, rfl⟩

theorem prepared_asRead (uri : Json) (text : String) (o : Nat) :
    prepared Chain.standard ⟨uri, text⟩ (place (Utf8.encode text) o) =
      prepared Chain.standard ⟨uri, asRead text⟩ o := by
  have hmoves := Source.moves_asRead uri text
  rw [prepared, prepared, hmoves.chain_range?]
  cases hrange : Chain.standard.range? ⟨uri, asRead text⟩ o with
  | none => rfl
  | some r => exact congrArg PositionRange.toJson (names_of_range? hrange).range_asRead

/-- Edits of variables and names have the same positions in both texts. -/
theorem map_edit_moved {uri : Json} {text : String} {es : List TextEdit}
    (hnames : ∀ e ∈ es, Source.Names ⟨uri, asRead text⟩ e.range) :
    (es.map (TextEdit.moved (place_strictMono (Utf8.encode text)))).map
        (LineIndex.ofText text).edit = es.map (LineIndex.ofText (asRead text)).edit := by
  rw [List.map_map]
  apply List.map_congr_left
  intro e he
  exact congrArg (fun range => PositionEdit.mk range e.replacement) (hnames e he).range_asRead

theorem entry_other {disk : Disk} {w : Workspace} {g : EditGroup} {u : String}
    (hu : g.uri ≠ .str u) (version : Json) :
    (entry disk w g).map (DocumentChange.stampedAt u version) = entry disk w g := by
  have hstamped : ∀ version' edits, DocumentChange.stampedAt u version ⟨g.uri, version', edits⟩ =
      ⟨g.uri, version', edits⟩ := fun _ _ => if_neg (mt Json.same_str.mp hu)
  unfold entry
  cases located disk w g.uri with
  | error fault => rfl
  | ok document =>
    change (document.text.toText (.member "encode") >>= _).map _ =
      document.text.toText (.member "encode") >>= _
    cases document.text.toText (.member "encode") with
    | error fault => rfl
    | ok text =>
      change (versionOf w g.uri >>= _).map _ = versionOf w g.uri >>= _
      cases versionOf w g.uri with
      | error fault => rfl
      | ok version' => exact congrArg Except.ok (hstamped _ _)

/-- A document is open, and a file holds its text; the other documents are open
in both workspaces. -/
structure Saved (disk : Disk) (w closed : Workspace) (u : String) (d : Document) (text : String) :
    Prop where
  keyed : w.Keyed
  opened : w.find? (.str u) = some d
  content : d.text = .str text
  close : w.closeDocument (.str u) = .ok closed
  file : ∃ path, Uri.pathOf (.str u) = .ok path ∧ '\x00' ∉ path.toList ∧
    disk path = .file (Utf8.encode text)

namespace Saved

variable {disk : Disk} {w closed : Workspace} {u : String} {d : Document} {text : String}
  (h : Saved disk w closed u d text)
include h

/-- What is read from the file. -/
theorem located_file :
    located disk closed (.str u) =
      .ok ⟨.str u, .str (asRead text), .str "", .int 0⟩ := by
  obtain ⟨path, hpath, hnul, hfile⟩ := h.file
  have hhas : closed.has (.str u) = .ok false := by
    rw [Workspace.has_str, h.keyed.find?_of_close h.close]
    rfl
  have hnone : ¬ path.toList.contains '\x00' = true := by simpa using hnul
  rw [located_of_closed hhas, hpath]
  change (if path.toList.contains '\x00' then _ else Document.ofFile _ (disk path)) = _
  rw [if_neg hnone, hfile, Document.ofFile, Utf8.decode_encode]
  rfl

theorem versionOf_file : versionOf closed (.str u) = .ok (.int 0) := by
  rw [versionOf, Workspace.has_str, h.keyed.find?_of_close h.close]
  rfl

theorem located_other {uri : Json} (huri : uri ≠ .str u) :
    located disk closed uri = located disk w uri := by
  have hhas := Workspace.has_of_close h.close huri
  cases hopen : w.has uri with
  | error fault =>
    rw [located, located, locate, run, run, hhas, hopen]
    rfl
  | ok isOpen =>
    cases isOpen with
    | true =>
      rw [located, located, locate, run, run, hhas, hopen, Workspace.get_of_close h.close huri]
      simp only [run_ofExcept]
    | false => rw [located_of_closed hopen, located_of_closed (hhas.trans hopen)]

theorem versionOf_other {uri : Json} (huri : uri ≠ .str u) :
    versionOf closed uri = versionOf w uri := by
  rw [versionOf, versionOf, Workspace.has_of_close h.close huri,
    Workspace.get_of_close h.close huri]

theorem keyed_closed : closed.Keyed := by
  unfold Workspace.Keyed
  rw [Workspace.documents_of_close h.close]
  exact h.keyed.sublist List.eraseP_sublist

/-- Both targets are at one position. -/
theorem exists_target {params : Json} (huri : requestUri params = .ok (.str u)) :
    ∃ offset : Except Fault Nat,
      (target params).outcome disk closed = offset.map (fun o => (⟨.str u, asRead text⟩, o)) ∧
      (target params).outcome disk w =
        offset.map fun o => (⟨.str u, text⟩, place (Utf8.encode text) o) := by
  have hfile := outcome_target huri h.located_file rfl
  have hlocated : located disk w (.str u) = .ok d := located_of_find? h.opened
  have hopen := outcome_target huri hlocated h.content
  refine ⟨requestPosition params >>= fun p => p.toOffset (asRead text), ?_, ?_⟩
  · rw [hfile]
    cases requestPosition params with
    | error fault => rfl
    | ok p => cases p.toOffset (asRead text) <;> rfl
  · rw [hopen, Workspace.uri_of_find? h.opened]
    cases requestPosition params with
    | error fault => rfl
    | ok p =>
      change (p.toOffset text >>= _) = (p.toOffset (asRead text)).map _
      rw [p.toOffset_asRead]
      cases p.toOffset (asRead text) <;> rfl

/-- The entry of a group, up to its version. -/
theorem exists_entry_of_group {g : EditGroup}
    (hnames : g.uri = .str u → ∀ e ∈ g.edits, Source.Names ⟨.str u, asRead text⟩ e.range) :
    ∃ change : Except Fault DocumentChange,
      entry disk closed g = change.map (DocumentChange.stampedAt u (.int 0)) ∧
      entry disk w (g.movedAt (place_strictMono (Utf8.encode text)) u) =
        change.map (DocumentChange.stampedAt u d.version) := by
  by_cases hu : g.uri = .str u
  · have hstamped : ∀ version, DocumentChange.stampedAt u version
        ⟨.str u, .int 0, g.edits.map (LineIndex.ofText (asRead text)).edit⟩ =
        ⟨.str u, version, g.edits.map (LineIndex.ofText (asRead text)).edit⟩ :=
      fun _ => if_pos (Json.same_str.mpr rfl)
    refine ⟨.ok ⟨.str u, .int 0, g.edits.map (LineIndex.ofText (asRead text)).edit⟩, ?_, ?_⟩
    · rw [Except.map, hstamped, entry, hu, h.located_file, h.versionOf_file]
      rfl
    · have hmoved : (g.moved (place_strictMono (Utf8.encode text))).uri = .str u := hu
      rw [Except.map, hstamped, ← map_edit_moved (hnames hu), EditGroup.movedAt_same _ hu, entry,
        hmoved, located_of_find? h.opened, versionOf_of_find? h.opened]
      change (d.text.toText (.member "encode") >>= _) = _
      rw [h.content]
      rfl
  · refine ⟨entry disk w g, ?_, ?_⟩
    · rw [entry_other hu, entry, h.located_other hu, h.versionOf_other hu]
      rfl
    · rw [entry_other hu, EditGroup.movedAt_other _ hu]

theorem exists_entries {groups : List EditGroup}
    (hnames : ∀ g ∈ groups, g.uri = .str u →
      ∀ e ∈ g.edits, Source.Names ⟨.str u, asRead text⟩ e.range) :
    ∃ changes : Except Fault (List DocumentChange),
      groups.mapM (entry disk closed) =
        changes.map (List.map (DocumentChange.stampedAt u (.int 0))) ∧
      (groups.map (EditGroup.movedAt (place_strictMono (Utf8.encode text)) u)).mapM
          (entry disk w) = changes.map (List.map (DocumentChange.stampedAt u d.version)) := by
  induction groups with
  | nil => exact ⟨.ok [], rfl, rfl⟩
  | cons g rest ih =>
    obtain ⟨hg, hrest⟩ := List.forall_mem_cons.mp hnames
    obtain ⟨change, hfile, hopen⟩ := h.exists_entry_of_group hg
    obtain ⟨changes, hfiles, hopens⟩ := ih hrest
    refine ⟨do return (← change) :: (← changes), ?_, ?_⟩
    · rw [List.mapM_cons, hfile, hfiles]
      cases change <;> cases changes <;> rfl
    · rw [List.map_cons, List.mapM_cons, hopen, hopens]
      cases change <;> cases changes <;> rfl

/-- The answer to a rename, up to the version of the document. -/
theorem exists_response {edits : Option EditMap}
    (hnames : ∀ map, edits = some map → ∀ g ∈ map.groups, g.uri = .str u →
      ∀ e ∈ g.edits, Source.Names ⟨.str u, asRead text⟩ e.range) :
    ∃ answer : Except Fault WorkspaceEdit,
      respond disk closed edits = answer.map (WorkspaceEdit.stampedAt u (.int 0)) ∧
      respond disk w (edits.map (EditMap.movedAt (place_strictMono (Utf8.encode text)) u)) =
        answer.map (WorkspaceEdit.stampedAt u d.version) := by
  cases edits with
  | none => exact ⟨.ok .empty, rfl, rfl⟩
  | some map =>
    obtain ⟨changes, hfile, hopen⟩ := h.exists_entries (hnames map rfl)
    refine ⟨changes.map WorkspaceEdit.mk, ?_, ?_⟩
    · rw [respond, hfile]
      cases changes <;> rfl
    · change (((map.groups.map _).mapM (entry disk w)).map WorkspaceEdit.mk) = _
      rw [hopen]
      cases changes <;> rfl

/-- The edits of both renames are the same, up to the move. -/
theorem grouped_open {shown : Str → Except Fault Unit}
    (hplain : ∀ text : String, shown (.plain text) = .ok ()) (o : Nat) (newName : Json) :
    grouped shown ((Chain.standard.steps ⟨.str u, text⟩ (place (Utf8.encode text) o : Nat)
        newName).draw w none) =
      (grouped shown
        ((Chain.standard.steps ⟨.str u, asRead text⟩ o newName).draw closed none)).map
        (Option.map (EditMap.movedAt (place_strictMono (Utf8.encode text)) u)) := by
  have hfits : ∀ s o w, ∀ step ∈ ((Chain.standard.steps s o newName).draw w none).items,
      step.Fits fun _ => True :=
    fun s o w => (Chain.tidy_standard (fun _ => True) s o newName trivial).items fun _ _ => trivial
  refine grouped_follows hplain ?_ (hfits _ _ _) (hfits _ _ _)
  apply (Source.moves_asRead (.str u) text).chain_follows rfl
  intro spelling
  exact Reference.elsewhere_close h.close spelling

end Saved

variable {disk : Disk} {w closed : Workspace} {u : String} {d : Document} {text : String}

/-- A document that is open and the file that holds its text, whatever its line
ends are, give the same answers: the same range to rename or none, and the same
changes, for the version of the open document or for zero. -/
theorem answers_of_saved {service : RenameService} (hservice : service.renamer = Chain.standard)
    {shown : Str → Except Fault Unit} (hsend : service.Reaches disk shown)
    (h : Saved disk w closed u d text) {params : Json}
    (huri : requestUri params = .ok (.str u)) :
    ((service.prepare params).run disk alone 0 w).result =
        ((service.prepare params).run disk alone 0 closed).result ∧
      ∃ answer : Except Fault WorkspaceEdit,
        ((service.rename params).run disk alone 0 w).result =
          answer.map (WorkspaceEdit.stampedAt u d.version) ∧
        ((service.rename params).run disk alone 0 closed).result =
          answer.map (WorkspaceEdit.stampedAt u (.int 0)) := by
  obtain ⟨offset, hfile, hopen⟩ := h.exists_target huri
  rw [result_run_alone, result_run_alone, result_run_alone, result_run_alone, outcome_prepare,
    outcome_prepare, outcome_rename hsend, outcome_rename hsend, hfile, hopen, hservice]
  cases offset with
  | error fault => exact ⟨rfl, .error fault, rfl, rfl⟩
  | ok o =>
    refine ⟨congrArg Except.ok (prepared_asRead (.str u) text o), ?_⟩
    cases hname : params.need "newName" with
    | error fault => exact ⟨.error fault, rfl, rfl⟩
    | ok newName =>
      change ∃ answer : Except Fault WorkspaceEdit,
        (grouped _ _ >>= respond disk w) = _ ∧ (grouped _ _ >>= respond disk closed) = _
      rw [h.grouped_open hsend.plain]
      cases hgrouped : grouped shown
          ((Chain.standard.steps ⟨.str u, asRead text⟩ o newName).draw closed none) with
      | error fault => exact ⟨.error fault, rfl, rfl⟩
      | ok edits =>
        have hnames : ∀ map, edits = some map → ∀ g ∈ map.groups, g.uri = .str u →
            ∀ e ∈ g.edits, Source.Names ⟨.str u, asRead text⟩ e.range := by
          intro map hmap g hg hu
          rw [hmap] at hgrouped
          exact names_of_grouped h.keyed_closed hgrouped rfl hg hu
        obtain ⟨answer, hresponse, hresponse'⟩ := h.exists_response hnames
        exact ⟨answer, hresponse', hresponse⟩

/-- A variable on three lines, each with another line end. -/
theorem answers_of_saved_mixed :
    let service : RenameService := ⟨Chain.standard, 1, fun _ => .done ()⟩
    let text := "$a;\r\n$a = 1;\r$a;\n"
    let disk : Disk := fun path => if path = "/a" then .file (Utf8.encode text) else .absent
    let w : Workspace := ⟨[⟨.str "file:///a", .str text, .null, .int 7⟩]⟩
    let closed : Workspace := ⟨[]⟩
    let params : Json := .obj [("textDocument", .obj [("uri", .str "file:///a")]),
      ("position", .obj [("line", .int 1), ("character", .int 1)]), ("newName", .str "b")]
    hasEntry ((service.rename params).run disk alone 0 w).result
        (fun c => c.version.same (.int 7) && c.edits.length = 3) = true ∧
      ((service.prepare params).run disk alone 0 w).result =
        ((service.prepare params).run disk alone 0 closed).result ∧
      ∃ answer : Except Fault WorkspaceEdit,
        ((service.rename params).run disk alone 0 w).result =
          answer.map (WorkspaceEdit.stampedAt "file:///a" (.int 7)) ∧
        ((service.rename params).run disk alone 0 closed).result =
          answer.map (WorkspaceEdit.stampedAt "file:///a" (.int 0)) := by
  intro service text disk w closed params
  have hentry : hasEntry ((service.rename params).run disk alone 0 w).result
      (fun c => c.version.same (.int 7) && c.edits.length = 3) = true := by decide +kernel
  have hsome : (Uri.pathOf (.str "file:///a")).toOption = some "/a" := by decide +kernel
  have hpath : Uri.pathOf (.str "file:///a") = .ok "/a" := by
    cases hfound : Uri.pathOf (.str "file:///a") with
    | error fault =>
      rw [hfound] at hsome
      cases hsome
    | ok path =>
      rw [hfound] at hsome
      exact congrArg Except.ok (Option.some.inj hsome)
  have hsaved : Saved disk w closed "file:///a" ⟨.str "file:///a", .str text, .null, .int 7⟩ text :=
    ⟨List.pairwise_singleton .., rfl, rfl, rfl, "/a", hpath, by decide, if_pos rfl⟩
  have hsend : service.Reaches disk fun _ => .ok () := ⟨fun _ _ => rfl, fun _ => rfl⟩
  exact ⟨hentry, answers_of_saved rfl hsend hsaved rfl⟩

end RenameService

end RenameServer
