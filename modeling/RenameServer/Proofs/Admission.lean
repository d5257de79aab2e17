import RenameServer.Proofs.Compatible

/-!
Edits that are offered one at a time. A map that refuses an edit stays as it was,
and the next edit is offered to it. Whatever has been offered before, a map knows
of a new edit what a comparison with all edits of its document would tell: it has
the edit already, one of them excludes it, or it is apart from all and is added.
-/
namespace RenameServer

namespace EditMap

/-- Offer an edit to a map. -/
def offer (map : EditMap) (e : LocatedEdit) : EditMap :=
  match map.add e with
  | .ok next => next
  | .error _ => map

/-- The map after edits have been offered one after the other. -/
def offered (es : List LocatedEdit) : EditMap := es.foldl offer empty

/-- The documents of a map. -/
def documents (map : EditMap) : List Json := map.groups.map EditGroup.uri

/-- The edits that a map has for a document. -/
def editsOf (map : EditMap) (uri : Json) : List TextEdit :=
  ((map.groups.find? fun g => g.uri.sameKey uri).map EditGroup.edits).getD []

theorem offer_of_ok {map next : EditMap} {e : LocatedEdit} (h : map.add e = .ok next) :
    map.offer e = next := by
  rw [offer, h]

theorem offer_of_error {map : EditMap} {e : LocatedEdit} {c : Conflict}
    (h : map.add e = .error c) : map.offer e = map := by
  rw [offer, h]

theorem offered_concat (es : List LocatedEdit) (e : LocatedEdit) :
    offered (es ++ [e]) = (offered es).offer e := by
  rw [offered, List.foldl_append]
  rfl

theorem editsFor_congr {uri uri' : Json} (h : uri.key? = uri'.key?) (es : List LocatedEdit) :
    editsFor uri es = editsFor uri' es := by
  simp only [editsFor, Json.sameKey, h]

/-- An edit overlaps itself. -/
theorem not_mem_of_free {e : LocatedEdit} {edits : List TextEdit}
    (h : ∀ d ∈ edits, d.range.overlaps e.range = false) : e.textEdit ∉ edits := by
  intro hmem
  have hapart := h _ hmem
  rw [LocatedEdit.textEdit, ByteRange.overlaps_self] at hapart
  cases hapart

/-! ### Adding in place -/

/-- Lists of edits under the URIs of their documents. -/
abbrev Table := List (Json × List TextEdit)

namespace Table

/-- A document that has no list gets an empty one. -/
def enter (uri : Json) : Table → Table
  | [] => [(uri, [])]
  | entry :: rest => if entry.1.sameKey uri then entry :: rest else entry :: enter uri rest

/-- The list of a document. -/
def get (uri : Json) (table : Table) : List TextEdit :=
  ((table.find? fun entry => entry.1.sameKey uri).map Prod.snd).getD []

/-- Change the list of a document. -/
def alter (uri : Json) (f : List TextEdit → List TextEdit) : Table → Table
  | [] => []
  | entry :: rest =>
    if entry.1.sameKey uri then (entry.1, f entry.2) :: rest else entry :: alter uri f rest

variable {uri : Json}

theorem enter_of_absent {table : Table} (h : ∀ entry ∈ table, entry.1.key? ≠ uri.key?) :
    enter uri table = table ++ [(uri, [])] := by
  induction table with
  | nil => rfl
  | cons entry rest ih =>
    rw [List.forall_mem_cons] at h
    rw [enter, if_neg (mt Json.sameKey_iff.mp h.1), ih h.2, List.cons_append]

variable {front back : Table} {key : Json} {edits : List TextEdit}

theorem enter_of_present (hfront : ∀ entry ∈ front, entry.1.key? ≠ uri.key?)
    (hkey : key.key? = uri.key?) :
    enter uri (front ++ (key, edits) :: back) = front ++ (key, edits) :: back := by
  induction front with
  | nil => exact if_pos (Json.sameKey_iff.mpr hkey)
  | cons entry rest ih =>
    rw [List.forall_mem_cons] at hfront
    rw [List.cons_append, enter, if_neg (mt Json.sameKey_iff.mp hfront.1), ih hfront.2]

theorem get_of_present (hfront : ∀ entry ∈ front, entry.1.key? ≠ uri.key?)
    (hkey : key.key? = uri.key?) : get uri (front ++ (key, edits) :: back) = edits := by
  have hnone : front.find? (fun entry => entry.1.sameKey uri) = none := by
    rw [List.find?_eq_none]
    exact fun entry hentry => mt Json.sameKey_iff.mp (hfront entry hentry)
  have hfind : ((key, edits) :: back).find? (fun entry => entry.1.sameKey uri) =
      some (key, edits) := List.find?_cons_of_pos (Json.sameKey_iff.mpr hkey)
  rw [get, List.find?_append, hnone, Option.none_or, hfind]
  rfl

theorem alter_of_present (f : List TextEdit → List TextEdit)
    (hfront : ∀ entry ∈ front, entry.1.key? ≠ uri.key?) (hkey : key.key? = uri.key?) :
    alter uri f (front ++ (key, edits) :: back) = front ++ (key, f edits) :: back := by
  induction front with
  | nil => exact if_pos (Json.sameKey_iff.mpr hkey)
  | cons entry rest ih =>
    rw [List.forall_mem_cons] at hfront
    rw [List.cons_append, alter, if_neg (mt Json.sameKey_iff.mp hfront.1), ih hfront.2,
      List.cons_append]

end Table

/-- The edits of all documents as they were added and by range, in a table each. -/
structure Tables where
  added : Table
  sorted : Table

/-- A program on the tables. Where it fails, what it has stored by then stays. -/
abbrev Storing (α : Type) := EStateM Conflict Tables α

namespace Storing

/-- Stop if the edit is there, fail if another one excludes it. -/
def inspect (uri : Json) (edit : TextEdit) : List TextEdit → Storing Bool
  | [] => pure true
  | other :: more =>
    if other = edit then pure false
    else if other.range.overlaps edit.range then throw ⟨uri, other, edit⟩
    else inspect uri edit more

/-- Add an edit. Its document is entered among the sorted lists before the edit is looked at. -/
def add (e : LocatedEdit) : Storing Unit := do
  modify fun tables => { tables with sorted := Table.enter e.uri tables.sorted }
  let sorted := Table.get e.uri (← get).sorted
  let i := EditGroup.place sorted e.textEdit
  if ← inspect e.uri e.textEdit (EditGroup.neighbours sorted i) then
    modify fun tables => { tables with
      sorted := Table.alter e.uri (fun es => es.take i ++ e.textEdit :: es.drop i) tables.sorted }
    modify fun tables => { tables with
      added := Table.alter e.uri (· ++ [e.textEdit]) (Table.enter e.uri tables.added) }

section

variable {α β : Type} (tables : Tables)

theorem run_modify_bind (f : Tables → Tables) (next : Unit → Storing β) :
    (modify f >>= next).run tables = (next ()).run (f tables) := rfl

theorem run_get_bind (next : Tables → Storing β) :
    (get >>= next).run tables = (next tables).run tables := rfl

variable {tables} {stored : Tables} {program : Storing α}

theorem run_bind_of_ok {a : α} (h : program.run tables = .ok a stored) (next : α → Storing β) :
    (program >>= next).run tables = (next a).run stored := by
  change EStateM.bind program next tables = _
  rw [EStateM.bind, show program tables = .ok a stored from h]
  rfl

theorem run_bind_of_error {c : Conflict} (h : program.run tables = .error c stored)
    (next : α → Storing β) : (program >>= next).run tables = .error c stored := by
  change EStateM.bind program next tables = _
  rw [EStateM.bind, show program tables = .error c stored from h]

end

theorem run_inspect (uri : Json) (edit : TextEdit) (others : List TextEdit) (tables : Tables) :
    (inspect uri edit others).run tables =
      match EditGroup.verdict edit others with
      | .present => .ok false tables
      | .conflict other => .error ⟨uri, other, edit⟩ tables
      | .free => .ok true tables := by
  induction others with
  | nil => rfl
  | cons other more ih =>
    rw [inspect, EditGroup.verdict]
    split_ifs
    · rfl
    · rfl
    · exact ih

theorem run_add (e : LocatedEdit) (tables : Tables) {entered : Table} {sorted : List TextEdit}
    {i : Nat} {v : EditGroup.Verdict} (hentered : Table.enter e.uri tables.sorted = entered)
    (hsorted : Table.get e.uri entered = sorted) (hi : EditGroup.place sorted e.textEdit = i)
    (hv : EditGroup.verdict e.textEdit (EditGroup.neighbours sorted i) = v) :
    (add e).run tables =
      match v with
      | .present => .ok () ⟨tables.added, entered⟩
      | .conflict other => .error ⟨e.uri, other, e.textEdit⟩ ⟨tables.added, entered⟩
      | .free => .ok ()
          ⟨Table.alter e.uri (· ++ [e.textEdit]) (Table.enter e.uri tables.added),
            Table.alter e.uri (fun es => es.take i ++ e.textEdit :: es.drop i) entered⟩ := by
  have hinspect := run_inspect e.uri e.textEdit (EditGroup.neighbours sorted i)
    ⟨tables.added, entered⟩
  rw [hv] at hinspect
  rw [add, run_modify_bind, run_get_bind]
  dsimp only
  rw [hentered, hsorted, hi]
  cases v with
  | present => exact run_bind_of_ok hinspect _
  | conflict other => exact run_bind_of_error hinspect _
  | free => exact run_bind_of_ok hinspect _

end Storing

/-- The tables of a map. -/
def tables (map : EditMap) : Tables :=
  ⟨map.groups.map fun g => (g.uri, g.edits), map.groups.map fun g => (g.uri, g.sorted)⟩

/-- Added in place, an edit that is refused leaves both tables as they were: its document
had a list before. -/
theorem run_add_tables (map : EditMap) (e : LocatedEdit) :
    (Storing.add e).run map.tables =
      match map.add e with
      | .ok next => .ok () next.tables
      | .error c => .error c map.tables := by
  obtain ⟨groups⟩ := map
  rcases addTo_cases e.uri e.textEdit groups with
    ⟨hnone, hadd⟩ | ⟨front, g, back, rfl, hkey, hfront, hadd⟩
  · -- A new document has no edits that could exclude this one.
    have hentries (f : EditGroup → List TextEdit) :
        ∀ entry ∈ groups.map fun g => (g.uri, f g), entry.1.key? ≠ e.uri.key? := by
      simpa using hnone
    have henter (f : EditGroup → List TextEdit) := Table.enter_of_absent (hentries f)
    rw [Storing.run_add e _ (henter EditGroup.sorted) (Table.get_of_present (hentries _) rfl)
      (i := 0) (v := .free) rfl rfl, add, hadd]
    simp only [tables, henter, Table.alter_of_present _ (hentries _) rfl]
    simp [Except.map]
  · have hentries (f : EditGroup → List TextEdit) :
        ∀ entry ∈ front.map fun g => (g.uri, f g), entry.1.key? ≠ e.uri.key? := by
      simpa using hfront
    have hsplit (f : EditGroup → List TextEdit) (g : EditGroup) :
        (front ++ g :: back).map (fun g => (g.uri, f g)) =
          front.map (fun g => (g.uri, f g)) ++ (g.uri, f g) :: back.map fun g => (g.uri, f g) := by
      rw [List.map_append, List.map_cons]
    have henter (f : EditGroup → List TextEdit) :
        Table.enter e.uri ((front ++ g :: back).map fun g => (g.uri, f g)) =
          (front ++ g :: back).map fun g => (g.uri, f g) := by
      rw [hsplit, Table.enter_of_present (hentries f) hkey]
    have hget : Table.get e.uri ((front ++ g :: back).map fun g => (g.uri, g.sorted)) =
        g.sorted := by
      rw [hsplit EditGroup.sorted, Table.get_of_present (hentries _) hkey]
    rw [add, hadd, EditGroup.add]
    cases hv : EditGroup.verdict e.textEdit
        (EditGroup.neighbours g.sorted (EditGroup.place g.sorted e.textEdit)) with
    | present => exact Storing.run_add e _ (henter EditGroup.sorted) hget rfl hv
    | conflict other => exact Storing.run_add e _ (henter EditGroup.sorted) hget rfl hv
    | free =>
      rw [Storing.run_add e _ (henter EditGroup.sorted) hget rfl hv]
      simp only [tables, hsplit, Table.enter_of_present (hentries _) hkey,
        Table.alter_of_present _ (hentries _) hkey, Except.map, Except.mapError]

variable {done : List LocatedEdit} {map : EditMap}

/-- The edits of a document are those that have been admitted for it. -/
theorem Groups.editsOf (h : Groups done map.groups) (uri : Json) :
    map.editsOf uri = editsFor uri done := by
  rw [EditMap.editsOf]
  cases hfind : map.groups.find? fun g => g.uri.sameKey uri with
  | some g =>
    have hsame : g.uri.sameKey uri = true := by simpa using List.find?_some hfind
    have hkey := Json.sameKey_iff.mp hsame
    exact (h.edits g (List.mem_of_find?_eq_some hfind)).trans (editsFor_congr hkey done)
  | none =>
    rw [Option.map_none, Option.getD_none, eq_comm, List.eq_nil_iff_forall_not_mem]
    intro t ht
    obtain ⟨d, hd, hsame, -⟩ := mem_editsFor.mp ht
    obtain ⟨g, hg, hkey⟩ := h.exists_group hd
    have hno := List.find?_eq_none.mp hfind g hg
    exact hno (Json.sameKey_iff.mpr (hkey.trans (Json.sameKey_iff.mp hsame)))

theorem Groups.mem_editsOf (h : Groups done map.groups) {uri : Json} {t : TextEdit} :
    t ∈ map.editsOf uri ↔ ∃ d ∈ done, d.uri.sameKey uri = true ∧ d.textEdit = t := by
  rw [h.editsOf, mem_editsFor]

/-- An edit that is there changes nothing. -/
theorem Groups.add_present (h : Groups done map.groups) {e : LocatedEdit}
    (hpresent : e.textEdit ∈ map.editsOf e.uri) : map.add e = .ok map := by
  rcases addTo_cases e.uri e.textEdit map.groups with
    ⟨hnone, -⟩ | ⟨front, g, back, heq, hkey, -, hadd⟩
  · obtain ⟨d, hd, hsame, -⟩ := h.mem_editsOf.mp hpresent
    obtain ⟨g, hg, hkey⟩ := h.exists_group hd
    exact absurd (hkey.trans (Json.sameKey_iff.mp hsame)) (hnone g hg)
  · have hg : g ∈ map.groups := heq ▸ List.mem_append_right _ (List.mem_cons_self ..)
    rw [h.editsOf, ← editsFor_congr hkey, ← h.edits g hg] at hpresent
    have hok : g.add e.textEdit = .ok g := by
      rcases (h.sound g hg).add_cases e.textEdit with ⟨-, hok⟩ | ⟨hnew, -⟩ | ⟨hfree, -⟩
      · exact hok
      · exact absurd hpresent hnew
      · exact absurd hpresent (not_mem_of_free hfree)
    rw [add, hadd, hok]
    exact congrArg (fun groups => Except.ok (EditMap.mk groups)) heq.symm

/-- One edit is offered: it is there, one that is there excludes it, or it is added. -/
theorem Groups.offer_cases (h : Groups done map.groups) (e : LocatedEdit) :
    (e.textEdit ∈ map.editsOf e.uri ∧ map.add e = .ok map) ∨
      (e.textEdit ∉ map.editsOf e.uri ∧ ∃ t ∈ map.editsOf e.uri, t.range.overlaps e.range = true ∧
        map.add e = .error ⟨e.uri, t, e.textEdit⟩) ∨
      ((∀ t ∈ map.editsOf e.uri, t.range.overlaps e.range = false) ∧
        ∃ next, map.add e = .ok next ∧ Groups (done ++ [e]) next.groups) := by
  by_cases hpresent : e.textEdit ∈ map.editsOf e.uri
  · exact .inl ⟨hpresent, h.add_present hpresent⟩
  · rcases h.add_cases e with ⟨next, hadd, hnext⟩ | ⟨d, hd, ⟨hsame, hoverlaps, -⟩, hadd⟩
    · refine .inr (.inr ⟨?_, next, hadd, hnext⟩)
      intro t ht
      obtain ⟨d, hd, hsame, rfl⟩ := h.mem_editsOf.mp ht
      have hne : d.textEdit ≠ e.textEdit := fun heq => hpresent (heq ▸ ht)
      have hlast : ¬d.Excludes e :=
        (List.pairwise_append.mp hnext.compatible).2.2 d hd e (List.mem_singleton_self e)
      rw [← Bool.not_eq_true]
      exact fun hoverlaps => hlast ⟨hsame, hoverlaps, hne⟩
    · have hmem : d.textEdit ∈ map.editsOf e.uri := h.mem_editsOf.mpr ⟨d, hd, hsame, rfl⟩
      exact .inr (.inl ⟨hpresent, d.textEdit, hmem, hoverlaps, hadd⟩)

/-- What an edit that is apart from all others adds, and to which document. -/
theorem Groups.view_concat {e : LocatedEdit} {next : EditMap} (h : Groups done map.groups)
    (hnext : Groups (done ++ [e]) next.groups)
    (hfree : ∀ t ∈ map.editsOf e.uri, t.range.overlaps e.range = false) :
    next.editsOf e.uri = map.editsOf e.uri ++ [e.textEdit] ∧
      (∀ uri, uri.sameKey e.uri = false → next.editsOf uri = map.editsOf uri) ∧
      next.documents = if map.documents.any e.uri.sameKey then map.documents
        else map.documents ++ [e.uri] := by
  refine ⟨?_, ?_, ?_⟩
  · have hnew := not_mem_of_free hfree
    rw [h.editsOf] at hnew
    rw [h.editsOf, hnext.editsOf, editsFor_concat_same (Json.sameKey_iff.mpr rfl), if_neg hnew]
  · intro uri hother
    rw [h.editsOf, hnext.editsOf, editsFor_concat_other]
    rw [Json.sameKey_iff]
    intro hkey
    rw [Json.sameKey_iff.mpr hkey.symm] at hother
    cases hother
  · rw [documents, documents, h.uris, hnext.uris, targets, targets, List.map_append,
      List.map_singleton, eraseDupsBy_concat]

/-- The sorted list of a document holds its edits from the first range to the last. -/
theorem Groups.ordered (h : Groups done map.groups) :
    ∀ g ∈ map.groups, g.edits = map.editsOf g.uri ∧ g.sorted.Perm g.edits ∧
      g.sorted.Pairwise fun a b =>
        a.range.precedes b.range = true ∧ a.range.overlaps b.range = false := by
  intro g hg
  have hsound := h.sound g hg
  refine ⟨(h.edits g hg).trans (h.editsOf g.uri).symm, hsound.perm, hsound.orderly.imp ?_⟩
  intro a b hbefore
  exact ⟨hbefore.precedes, ByteRange.overlaps_eq_false_iff.mpr (.inl hbefore)⟩

/-- Whatever is offered, the map holds the groups of the edits that it has let in. -/
theorem exists_groups_offered (es : List LocatedEdit) :
    ∃ done, Groups done (offered es).groups := by
  induction es using List.reverseRecOn with
  | nil => exact ⟨[], groups_nil⟩
  | append_singleton es e ih =>
    obtain ⟨done, h⟩ := ih
    rw [offered_concat]
    rcases h.add_cases e with ⟨next, hadd, hnext⟩ | ⟨d, -, -, hadd⟩
    · exact ⟨done ++ [e], by rwa [offer_of_ok hadd]⟩
    · exact ⟨done, by rwa [offer_of_error hadd]⟩

/-- Edits that have been offered, and one more. The map stays the same exactly if
it has that edit already. It refuses the edit exactly if it has another one that
overlaps it, and names such a one. Otherwise the edit comes last in its document.
All the while each document has its edits also in the order of their ranges, of
which no two overlap. Adding in place comes to the same, so that a refusal leaves
the tables as they were. -/
theorem add_offered (es : List LocatedEdit) (e : LocatedEdit) :
    let map := offered es
    let old := map.editsOf e.uri
    (Storing.add e).run map.tables =
        (match map.add e with
        | .ok next => .ok () next.tables
        | .error c => .error c map.tables) ∧
      (map.add e = .ok map ↔ e.textEdit ∈ old) ∧
      ((∃ c, map.add e = .error c) ↔
        e.textEdit ∉ old ∧ ∃ d ∈ old, d.range.overlaps e.range = true) ∧
      (∀ c, map.add e = .error c →
        c.uri = e.uri ∧ c.first ∈ old ∧ c.second = e.textEdit ∧
          c.first.range.overlaps c.second.range = true ∧ offered (es ++ [e]) = map) ∧
      ((∀ d ∈ old, d.range.overlaps e.range = false) → ∃ next, map.add e = .ok next ∧
        offered (es ++ [e]) = next ∧ next.editsOf e.uri = old ++ [e.textEdit] ∧
        (∀ uri, uri.sameKey e.uri = false → next.editsOf uri = map.editsOf uri) ∧
        next.documents = if map.documents.any e.uri.sameKey then map.documents
          else map.documents ++ [e.uri]) ∧
      ∀ g ∈ map.groups, g.edits = map.editsOf g.uri ∧ g.sorted.Perm g.edits ∧
        g.sorted.Pairwise fun a b =>
          a.range.precedes b.range = true ∧ a.range.overlaps b.range = false := by
  intro map old
  obtain ⟨done, h⟩ := exists_groups_offered es
  refine ⟨run_add_tables map e, ?_⟩
  rcases h.offer_cases e with
    ⟨hpresent, hadd⟩ | ⟨hnew, d, hd, hoverlaps, hadd⟩ | ⟨hfree, next, hadd, hnext⟩
  · refine ⟨iff_of_true hadd hpresent, iff_of_false ?_ ?_, ?_, ?_, h.ordered⟩
    · rintro ⟨c, hc⟩
      cases hadd.symm.trans hc
    · exact fun hnot => hnot.1 hpresent
    · intro c hc
      cases hadd.symm.trans hc
    · intro hfree
      exact absurd hpresent (not_mem_of_free hfree)
  · refine ⟨iff_of_false ?_ hnew, iff_of_true ⟨_, hadd⟩ ⟨hnew, d, hd, hoverlaps⟩, ?_, ?_, h.ordered⟩
    · intro hok
      cases hadd.symm.trans hok
    · intro c hc
      cases hadd.symm.trans hc
      exact ⟨rfl, hd, rfl, hoverlaps, (offered_concat es e).trans (offer_of_error hadd)⟩
    · intro hfree
      rw [hfree d hd] at hoverlaps
      cases hoverlaps
  · have hview := h.view_concat hnext hfree
    refine ⟨iff_of_false ?_ (not_mem_of_free hfree), iff_of_false ?_ ?_, ?_, ?_, h.ordered⟩
    · -- the edits of the document have become more
      intro hok
      rw [Except.ok.inj (hadd.symm.trans hok)] at hview
      cases List.self_eq_append_right.mp hview.1
    · rintro ⟨c, hc⟩
      cases hadd.symm.trans hc
    · rintro ⟨-, d, hd, hoverlaps⟩
      rw [hfree d hd] at hoverlaps
      cases hoverlaps
    · intro c hc
      cases hadd.symm.trans hc
    · exact fun _ => ⟨next, hadd, (offered_concat es e).trans (offer_of_ok hadd), hview⟩

/-- An insertion at the start of a range does not hide the range. -/
theorem add_offered_refused :
    ∃ c, (offered [⟨.str "a", ⟨4, 9, by decide⟩, "x"⟩, ⟨.str "a", ⟨4, 4, by decide⟩, "y"⟩]).add
      ⟨.str "a", ⟨3, 5, by decide⟩, "z"⟩ = .error c :=
  (add_offered _ _).2.2.1.mpr (by decide +kernel)

theorem compatible_iff {es : List LocatedEdit} :
    Compatible es ↔ ∀ d ∈ es, ∀ e ∈ es, ¬d.Excludes e := by
  have hsymm : Std.Symm fun d e : LocatedEdit => ¬d.Excludes e := by
    refine ⟨?_⟩
    rintro d e h ⟨hsame, hoverlaps, hne⟩
    rw [ByteRange.overlaps_comm] at hoverlaps
    exact h ⟨Json.sameKey_iff.mpr (Json.sameKey_iff.mp hsame).symm, hoverlaps, hne.symm⟩
  have hself : ∀ e ∈ es, ¬e.Excludes e := fun e _ h => h.2.2 rfl
  exact ⟨fun h => h.forall_of_forall hself, List.pairwise_of_forall_mem_list⟩

theorem ofList_ok_iff {es : List LocatedEdit} : (∃ map, ofList es = .ok map) ↔ Compatible es := by
  constructor
  · rintro ⟨map, hmap⟩
    by_contra hnot
    obtain ⟨-, e, -, -, -, d, -, -, herror⟩ := ofList_of_not_compatible hnot
    cases hmap.symm.trans herror
  · intro h
    obtain ⟨map, hmap, -⟩ := ofList_of_compatible h
    exact ⟨map, hmap⟩

/-- A list of edits can be grouped exactly if any two edits of one document are
the same or apart, so that their order does not matter. The documents come as
they first occur, each with its edits in their order and no edit twice. -/
theorem ofList_grouped (es : List LocatedEdit) :
    ((∃ map, ofList es = .ok map) ↔
        ∀ d ∈ es, ∀ e ∈ es, d.uri.sameKey e.uri = true →
          d.textEdit = e.textEdit ∨ d.range.overlaps e.range = false) ∧
      (∀ es', es.Perm es' → ((∃ map, ofList es = .ok map) ↔ ∃ map, ofList es' = .ok map)) ∧
      ∀ map, ofList es = .ok map →
        map.documents = (es.map LocatedEdit.uri).eraseDupsBy Json.sameKey ∧
          ∀ g ∈ map.groups, g.edits =
            ((es.filter fun e => e.uri.sameKey g.uri).map LocatedEdit.textEdit).eraseDups := by
  refine ⟨?_, ?_, ?_⟩
  · rw [ofList_ok_iff, compatible_iff]
    refine forall₂_congr fun d _ => forall₂_congr fun e _ => ?_
    rw [LocatedEdit.Excludes, ← Bool.not_eq_true]
    tauto
  · intro es' hperm
    rw [ofList_ok_iff, ofList_ok_iff, compatible_iff, compatible_iff]
    simp only [hperm.mem_iff]
  · intro map hmap
    obtain ⟨map', hmap', hgroups⟩ := ofList_of_compatible (ofList_ok_iff.mp ⟨map, hmap⟩)
    cases hmap.symm.trans hmap'
    exact ⟨hgroups.uris, hgroups.edits⟩

/-- Ranges that touch, an insertion between them and an edit that comes twice. -/
theorem ofList_grouped_touching :
    ∃ map, ofList [⟨.str "a", ⟨4, 9, by decide⟩, "x"⟩, ⟨.str "a", ⟨4, 4, by decide⟩, "y"⟩,
      ⟨.str "a", ⟨0, 4, by decide⟩, "z"⟩, ⟨.str "a", ⟨4, 4, by decide⟩, "y"⟩] = .ok map :=
  (ofList_grouped _).1.mpr (by decide +kernel)

end EditMap

end RenameServer
