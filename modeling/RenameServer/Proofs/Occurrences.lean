import RenameServer.Proofs.Cursor
import RenameServer.Proofs.Drawing
import RenameServer.Proofs.Jobs
import RenameServer.Proofs.Sharing
import RenameServer.Proofs.Values

/-!
A rename from any of its occurrences. Wherever the edits of a rename are, a
cursor at the start of one of them leads to the same edits: a variable has the
same occurrences from each of them, and a name the same references in all open
documents, since case makes no difference to a match or to being reserved.
-/
namespace RenameServer

namespace Name

open Utf8 (Bytes)
open Token (lowerBytes)

/-- A byte with an ASCII letter in lower case. -/
def lowerByte (b : UInt8) : UInt8 := if 0x41 ≤ b ∧ b ≤ 0x5a then b + 32 else b

theorem lowerBytes_cons (b : UInt8) (rest : Bytes) :
    lowerBytes (b :: rest) = lowerByte b :: lowerBytes rest := rfl

theorem lowerByte_of_ascii {b : UInt8} (h : b < 0x80) : lowerByte b < 0x80 := by
  unfold lowerByte
  split
  · grind
  · exact h

theorem lowerByte_of_not_ascii {b : UInt8} (h : ¬ b < 0x80) : lowerByte b = b := by
  unfold lowerByte
  exact if_neg (by grind)

/-- Bytes that are not ASCII have no case. -/
theorem tail_lowerBytes {low : UInt8} (hlow : 0x80 ≤ low) (need : Nat) (high : UInt8)
    (bits taken : Nat) (rest : Bytes) :
    Utf8.tail need low high bits taken (lowerBytes rest) =
      Utf8.tail need low high bits taken rest := by
  induction need generalizing low high bits taken rest with
  | zero => rfl
  | succ need ih =>
    cases rest with
    | nil => rfl
    | cons b rest =>
      rw [lowerBytes_cons]
      by_cases hb : b < 0x80
      · have hlower := lowerByte_of_ascii hb
        rw [Utf8.tail, if_neg (by grind), Utf8.tail, if_neg (by grind)]
      · rw [lowerByte_of_not_ascii hb, Utf8.tail, Utf8.tail]
        split
        · exact ih (by decide) ..
        · rfl

theorem low_of_lead? {b : UInt8} {l : Utf8.Lead} (h : Utf8.lead? b = some l) : 0x80 ≤ l.low := by
  unfold Utf8.lead? at h
  grind

/-- The character of a decoded unit. -/
def charOf (u : Utf8.Decoded) : Char :=
  match u.value with
  | .ok c => c
  | .error _ => Utf8.replacement

theorem decodeLossy_cons (b : UInt8) (rest : Bytes) :
    Utf8.decodeLossy (b :: rest) =
      charOf (Utf8.unit b rest) :: Utf8.decodeLossy (rest.drop (Utf8.unit b rest).extra) := by
  rw [Utf8.decodeLossy]
  rfl

theorem unit_of_ascii {b : UInt8} (h : b < 0x80) (rest : Bytes) :
    Utf8.unit b rest = ⟨0, .ok (Char.ofNat b.toNat)⟩ := by
  rw [Utf8.unit, Utf8.lead?, if_pos h]
  rfl

theorem lowerChar_lowerByte : ∀ n < 0x80,
    lowerChar (Char.ofNat (lowerByte (UInt8.ofNat n)).toNat) = lowerChar (Char.ofNat n) := by
  decide

/-- A unit in lower case is as long and has the same character up to case. -/
theorem unit_lowerBytes (b : UInt8) (rest : Bytes) :
    (Utf8.unit (lowerByte b) (lowerBytes rest)).extra = (Utf8.unit b rest).extra ∧
      lowerChar (charOf (Utf8.unit (lowerByte b) (lowerBytes rest))) =
        lowerChar (charOf (Utf8.unit b rest)) := by
  by_cases hb : b < 0x80
  · have hchar := lowerChar_lowerByte b.toNat (UInt8.lt_iff_toNat_lt.mp hb)
    rw [UInt8.ofNat_toNat] at hchar
    rw [unit_of_ascii hb, unit_of_ascii (lowerByte_of_ascii hb)]
    exact ⟨rfl, hchar⟩
  · have hunit : Utf8.unit (lowerByte b) (lowerBytes rest) = Utf8.unit b rest := by
      rw [lowerByte_of_not_ascii hb, Utf8.unit, Utf8.unit]
      cases hlead : Utf8.lead? b with
      | none => rfl
      | some l => exact tail_lowerBytes (low_of_lead? hlead) ..
    rw [hunit]
    exact ⟨rfl, rfl⟩

theorem map_lowerChar_decodeLossy (bytes : Bytes) :
    (Utf8.decodeLossy (lowerBytes bytes)).map lowerChar =
      (Utf8.decodeLossy bytes).map lowerChar := by
  fun_induction Utf8.decodeLossy bytes with
  | case1 => rw [lowerBytes, List.map_nil, Utf8.decodeLossy]
  | case2 b rest u ih =>
    obtain ⟨hextra, hchar⟩ := unit_lowerBytes b rest
    have hdrop : (lowerBytes rest).drop u.extra = lowerBytes (rest.drop u.extra) :=
      (List.map_drop ..).symm
    rw [lowerBytes_cons, decodeLossy_cons, hextra, hdrop, List.map_cons, hchar, ih]
    rfl

/-- Whether a name is reserved does not depend on the case of its letters. -/
theorem isReserved_of_lowerBytes_eq {x y : Bytes} (h : lowerBytes x = lowerBytes y) :
    isReserved (Utf8.lossy x) = isReserved (Utf8.lossy y) := by
  have hchars : (Utf8.decodeLossy x).map lowerChar = (Utf8.decodeLossy y).map lowerChar := by
    rw [← map_lowerChar_decodeLossy x, h, map_lowerChar_decodeLossy y]
  simp only [isReserved, Utf8.lossy, String.toList_ofList, hchars]

end Name

/-- Open documents that have texts, and URIs of their own. -/
structure Workspace.Proper (w : Workspace) : Prop where
  keyed : w.Keyed
  uris : ∀ d ∈ w.documents, ∃ u : String, d.uri = .str u
  texts : ∀ d ∈ w.documents, ∃ text : String, d.text = .str text

/-- A source that is the open document at its URI. -/
def Workspace.Shows (w : Workspace) (s : Source) : Prop :=
  ∃ d, w.find? s.uri = some d ∧ d.uri = s.uri ∧ d.text = .str s.text

/-- The tokens of a document that has a text. -/
def Document.tokens (d : Document) : List Token :=
  match d.text with
  | .str text => Token.scan (Utf8.encode text)
  | _ => []

namespace Workspace

variable {w : Workspace} {s : Source}

theorem Proper.eq_of_same (hw : w.Proper) {d e : Document} (hd : d ∈ w.documents)
    (he : e ∈ w.documents) (h : d.uri.same e.uri = true) : d = e := by
  obtain ⟨u, hu⟩ := hw.uris e he
  rw [hu] at h
  have hfind := hw.keyed.find?_eq hd (Json.same_str.mp h)
  rw [hw.keyed.find?_eq he hu] at hfind
  exact (Option.some.inj hfind).symm

/-- A document among proper ones as a source. -/
theorem Proper.exists_source (hw : w.Proper) {d : Document} (hd : d ∈ w.documents) :
    ∃ s, w.Shows s ∧ s.uri = d.uri ∧ s.tokens = d.tokens := by
  obtain ⟨u, hu⟩ := hw.uris d hd
  obtain ⟨text, htext⟩ := hw.texts d hd
  refine ⟨⟨d.uri, text⟩, ⟨d, hu ▸ hw.keyed.find?_eq hd hu, rfl, htext⟩, rfl, ?_⟩
  simp only [Document.tokens, htext, Source.tokens]

end Workspace

/-- A failure is no edit. -/
theorem Renamer.edit_not_mem_fail (message : String) (kind : FailureKind) (w : Workspace)
    (e : LocatedEdit) : Step.edit e ∉ ((fail message kind).draw w none).items := by
  intro hmem
  cases List.mem_singleton.mp hmem

namespace Variable

variable {w : Workspace} {s : Source} {offset : Int} {newName : Json} {target : Token}
  {name : String}

/-- A variable is under the cursor that can get a name. -/
structure Renames (s : Source) (offset : Int) (newName : Json) (target : Token) (name : String) :
    Prop where
  under : Token.at? s.tokens offset .variable = some target
  ne_this : target.value ≠ thisWord
  given : ∃ text, newName = .str text ∧ bareName text = name
  valid : Name.isIdentifier name = true ∧ name ≠ "this"

/-- The edits that give a variable its new name. -/
def writings (s : Source) (target : Token) (name : String) : List Step :=
  (occurrences s.tokens target).map fun t => .edit ⟨s.uri, t.range, "$" ++ name⟩

theorem Renames.range? (h : Renames s offset newName target name) :
    range? s offset = some target.range := by
  simp only [Variable.range?, h.under, if_neg h.ne_this]

theorem Renames.draws (h : Renames s offset newName target name) :
    (steps s offset newName).Draws w (writings s target name) := by
  obtain ⟨text, rfl, rfl⟩ := h.given
  have hvalid : ¬(!Name.isIdentifier (bareName text) || bareName text = "this") = true := by
    simp [h.valid]
  simp only [steps, h.under, if_neg h.ne_this, if_neg hvalid]
  exact Stream.draws_ofList _

theorem renames_of_edit_mem {e : LocatedEdit}
    (h : Step.edit e ∈ ((steps s offset newName).draw w none).items) :
    ∃ target name, Renames s offset newName target name := by
  simp only [steps] at h
  split at h
  · exact (Renamer.edit_not_mem_fail _ _ w e h).elim
  · next target htarget =>
    split at h
    · exact (Renamer.edit_not_mem_fail _ _ w e h).elim
    · next hthis =>
      split at h
      · next text =>
        split at h
        · exact (Renamer.edit_not_mem_fail _ _ w e h).elim
        · next hname =>
          refine ⟨target, bareName text, htarget, hthis, ⟨text, rfl, rfl⟩, ?_⟩
          simpa using hname
      · cases h
      · cases h

/-- The same variable is under a cursor at any of its occurrences. -/
theorem Renames.of_mem (h : Renames s offset newName target name) {t : Token}
    (ht : t ∈ occurrences s.tokens target) : Renames s t.start newName t name := by
  obtain ⟨hmem, hfound⟩ := List.mem_filter.mp ht
  obtain ⟨hkind, hvalue, -⟩ := of_decide_eq_true hfound
  have hcursor := Token.at?_start (Respelling.apart_scan _) hmem
  rw [hkind] at hcursor
  exact ⟨hcursor, hvalue ▸ h.ne_this, h.given, h.valid⟩

end Variable

namespace Reference

open Strategy

variable {w : Workspace} {s : Source} {offset : Int} {newName : Json} {target : Token}
  {name : String}

/-- A name is under the cursor that can get another one. -/
structure Renames (s : Source) (offset : Int) (newName : Json) (target : Token) (name : String) :
    Prop where
  under : Token.at? s.tokens offset .identifier = some target
  free : Name.isReserved target.name = false
  given : newName = .str name
  valid : Name.isIdentifier name = true ∧ Name.isReserved name = false

theorem Renames.range? (h : Renames s offset newName target name) :
    range? s offset = some target.range := by
  simp only [Reference.range?, h.under, h.free]
  rfl

theorem Renames.steps_eq (h : Renames s offset newName target name) :
    steps s offset newName = Stream.map (write name)
      (.prepend (matching s.uri target.value s.tokens)
        (.look fun w => elsewhere s.uri target.value w.documents)) := by
  have hvalid : ¬(!Name.isIdentifier name || Name.isReserved name) = true := by simp [h.valid]
  rw [h.given]
  simp only [steps, find, h.under, h.free, if_neg hvalid]
  rfl

/-- The references in the documents other than the one at a URI. -/
theorem draws_elsewhere {documents : List Document}
    (htexts : ∀ d ∈ documents, ∃ text : String, d.text = .str text) (uri : Json)
    (spelling : Utf8.Bytes) :
    (elsewhere uri spelling documents).Draws w
      ((documents.filter fun d => !d.uri.same uri).flatMap fun d =>
        matching d.uri spelling d.tokens) := by
  induction documents with
  | nil => exact Stream.draws_done
  | cons d rest ih =>
    obtain ⟨⟨text, htext⟩, hrest⟩ := List.forall_mem_cons.mp htexts
    rw [elsewhere]
    by_cases hskip : d.uri.same uri = true
    · rw [if_pos hskip, List.filter_cons_of_neg (by simp [hskip])]
      exact ih hrest
    · rw [if_neg hskip, List.filter_cons_of_pos (by simpa using hskip), List.flatMap_cons]
      simp only [htext, Document.tokens]
      exact (ih hrest).prepend _

/-- The references from a document are those in all open documents. -/
theorem mem_references_iff (hw : w.Proper) {d : Document} (hd : d ∈ w.documents)
    (spelling : Utf8.Bytes) (r : LocatedRange) :
    r ∈ matching d.uri spelling d.tokens ++
        (w.documents.filter fun e => !e.uri.same d.uri).flatMap (fun e =>
          matching e.uri spelling e.tokens) ↔
      ∃ e ∈ w.documents, r ∈ matching e.uri spelling e.tokens := by
  simp only [List.mem_append, List.mem_flatMap, List.mem_filter]
  constructor
  · rintro (hr | ⟨e, ⟨he, -⟩, hr⟩)
    · exact ⟨d, hd, hr⟩
    · exact ⟨e, he, hr⟩
  · rintro ⟨e, he, hr⟩
    by_cases hsame : e.uri.same d.uri = true
    · rw [hw.eq_of_same he hd hsame] at hr
      exact .inl hr
    · exact .inr ⟨e, ⟨he, by simpa using hsame⟩, hr⟩

/-- From an open document, all references in open documents get the new name. -/
theorem Renames.draws (hw : w.Proper) (hs : w.Shows s) (h : Renames s offset newName target name) :
    ∃ ranges : List LocatedRange, (steps s offset newName).Draws w (ranges.map (write name)) ∧
      ∀ r, r ∈ ranges ↔ ∃ d ∈ w.documents, r ∈ matching d.uri target.value d.tokens := by
  obtain ⟨d, hfind, huri, htext⟩ := hs
  have hd := Workspace.mem_of_find? hfind
  have htokens : d.tokens = s.tokens := by simp only [Document.tokens, htext, Source.tokens]
  have hlook : (Stream.look fun w : Workspace => elsewhere s.uri target.value w.documents).Draws w
      ((w.documents.filter fun e => !e.uri.same s.uri).flatMap fun e =>
        matching e.uri target.value e.tokens) := .look (draws_elsewhere hw.texts _ _)
  refine ⟨_, h.steps_eq ▸ (hlook.prepend _).map (write name), fun r => ?_⟩
  rw [← huri, ← htokens]
  exact mem_references_iff hw hd target.value r

theorem renames_of_edit_mem {e : LocatedEdit}
    (h : Step.edit e ∈ ((steps s offset newName).draw w none).items) :
    ∃ target name, Renames s offset newName target name := by
  simp only [steps] at h
  split at h
  · exact (Renamer.edit_not_mem_fail _ _ w e h).elim
  · next target htarget =>
    split at h
    · exact (Renamer.edit_not_mem_fail _ _ w e h).elim
    · next hreserved =>
      split at h
      · next name =>
        split at h
        · exact (Renamer.edit_not_mem_fail _ _ w e h).elim
        · next hname =>
          refine ⟨target, name, htarget, by simpa using hreserved, rfl, ?_⟩
          simpa using hname
      · cases h
      · cases h

/-- A name that matches is under a cursor at its start, and can be renamed as well. -/
theorem Renames.of_match (h : Renames s offset newName target name) {s' : Source} {t : Token}
    (ht : t ∈ s'.tokens) (hmatch : isMatch target.value t = true) :
    Renames s' t.start newName t name ∧ Token.at? s'.tokens t.start .variable = none := by
  obtain ⟨hkind, hlower⟩ := of_decide_eq_true hmatch
  have hcursor := Token.at?_start (Respelling.apart_scan _) ht
  rw [hkind] at hcursor
  have hfree : Name.isReserved t.name = false := by
    rw [← h.free]
    exact Name.isReserved_of_lowerBytes_eq hlower
  exact ⟨⟨hcursor, hfree, h.given, h.valid⟩, Token.at?_variable_of_identifier ht hkind⟩

/-- A reference, and the references of its own spelling. -/
theorem exists_of_mem_matching {uri : Json} {spelling : Utf8.Bytes} {tokens : List Token}
    {r : LocatedRange} (h : r ∈ matching uri spelling tokens) :
    ∃ t ∈ tokens, isMatch spelling t = true ∧ r = ⟨uri, t.range⟩ ∧
      ∀ uri' tokens', matching uri' t.value tokens' = matching uri' spelling tokens' := by
  obtain ⟨t, ht, rfl⟩ := List.mem_map.mp h
  obtain ⟨hmem, hmatch⟩ := List.mem_filter.mp ht
  refine ⟨t, hmem, hmatch, rfl, fun uri' tokens' => ?_⟩
  simp only [matching, (of_decide_eq_true hmatch).2]

end Reference

namespace Chain

variable {w : Workspace} {s : Source} {offset : Int} {newName : Json} {target : Token}
  {name : String}

theorem draws_variable (h : Variable.Renames s offset newName target name) {t : Token}
    (ht : t ∈ Variable.occurrences s.tokens target) :
    (standard.steps s offset newName).Draws w (Variable.writings s target name) := by
  have hdraws := h.draws (w := w)
  obtain ⟨first, rest, hfirst⟩ := List.exists_cons_of_ne_nil (List.ne_nil_of_mem ht)
  rw [Variable.writings, hfirst, List.map_cons] at hdraws ⊢
  exact draws_steps [] (List.forall_mem_nil _) h.range? hdraws

theorem draws_reference (h : Reference.Renames s offset newName target name)
    (hnone : Token.at? s.tokens offset .variable = none) {ranges : List LocatedRange}
    (hdraws : (Reference.steps s offset newName).Draws w (ranges.map (Reference.write name)))
    {r : LocatedRange} (hr : r ∈ ranges) :
    (standard.steps s offset newName).Draws w (ranges.map (Reference.write name)) := by
  obtain ⟨first, rest, rfl⟩ := List.exists_cons_of_ne_nil (List.ne_nil_of_mem hr)
  have hpassed : Variable.renamer.range? s offset = none := by
    simp only [Variable.renamer, Variable.range?, hnone]
  exact draws_steps [Variable.renamer] (List.forall_mem_singleton.mpr hpassed) h.range? hdraws

/-- A variable keeps its edits when the cursor goes to one of them. -/
theorem draws_from_variable (h : Variable.Renames s offset newName target name) {e : LocatedEdit}
    (he : .edit e ∈ Variable.writings s target name) :
    s.uri = e.uri ∧
      (standard.steps s e.range.start newName).Draws w (Variable.writings s target name) := by
  obtain ⟨t, ht, hedit⟩ := List.mem_map.mp he
  obtain rfl := Step.edit.inj hedit
  have hsame := Variable.occurrences_of_mem ht
  have hdraws := draws_variable (w := w) (h.of_mem ht) (hsame.symm ▸ ht)
  rw [Variable.writings, hsame] at hdraws
  exact ⟨rfl, hdraws⟩

/-- A name keeps its edits when the cursor goes to one of them, in whatever document. -/
theorem draws_from_reference (hw : w.Proper) (h : Reference.Renames s offset newName target name)
    {ranges : List LocatedRange}
    (hranges : ∀ r, r ∈ ranges ↔ ∃ d ∈ w.documents,
      r ∈ Reference.matching d.uri target.value d.tokens) {r : LocatedRange} (hr : r ∈ ranges) :
    ∃ s', w.Shows s' ∧ s'.uri = r.uri ∧ ∃ ranges' : List LocatedRange,
      (standard.steps s' r.range.start newName).Draws w (ranges'.map (Reference.write name)) ∧
      ∀ r', r' ∈ ranges' ↔ r' ∈ ranges := by
  obtain ⟨d, hd, hmem⟩ := (hranges r).mp hr
  obtain ⟨s', hs', huri, htokens⟩ := hw.exists_source hd
  obtain ⟨t, ht, hmatch, rfl, hspelling⟩ := Reference.exists_of_mem_matching hmem
  rw [← htokens] at ht
  obtain ⟨hrenames, hnone⟩ := h.of_match ht hmatch
  obtain ⟨ranges', hdraws, hranges'⟩ := hrenames.draws hw hs'
  have hsame : ∀ r', r' ∈ ranges' ↔ r' ∈ ranges := by
    intro r'
    rw [hranges', hranges]
    simp only [hspelling]
  exact ⟨s', hs', huri, ranges', draws_reference hrenames hnone hdraws ((hsame _).mpr hr), hsame⟩

/-- A rename has the same edits from each of its occurrences: where it writes, a
cursor leads to the same edits. -/
theorem edits_from_occurrence (hw : w.Proper) (hs : w.Shows s) {e : LocatedEdit}
    (he : .edit e ∈ ((standard.steps s offset newName).draw w none).items) :
    ∃ s', w.Shows s' ∧ s'.uri = e.uri ∧
      ((standard.steps s' e.range.start newName).draw w none).fault = none ∧
      ∀ step, step ∈ ((standard.steps s' e.range.start newName).draw w none).items ↔
        step ∈ ((standard.steps s offset newName).draw w none).items := by
  obtain ⟨r, hr, hitems⟩ := exists_of_edit_mem he
  have hsteps : ((standard.steps s offset newName).draw w none).items =
      ((r.steps s offset newName).draw w none).items := hitems
  rw [hsteps] at he ⊢
  simp only [List.mem_cons, List.not_mem_nil, or_false] at hr
  rcases hr with rfl | rfl
  · obtain ⟨target, name, h⟩ := Variable.renames_of_edit_mem he
    have hfirst : ((Variable.renamer.steps s offset newName).draw w none).items =
        Variable.writings s target name := h.draws.items
    rw [hfirst] at he ⊢
    obtain ⟨huri, hdraws⟩ := draws_from_variable (w := w) h he
    exact ⟨s, hs, huri, hdraws.fault, fun step => by rw [hdraws.items]⟩
  · obtain ⟨target, name, h⟩ := Reference.renames_of_edit_mem he
    obtain ⟨ranges, hdraws, hranges⟩ := h.draws hw hs
    have hfirst : ((Reference.renamer.steps s offset newName).draw w none).items =
        ranges.map (Reference.write name) := hdraws.items
    rw [hfirst] at he ⊢
    obtain ⟨r, hr, hedit⟩ := List.mem_map.mp he
    obtain rfl := Step.edit.inj hedit
    obtain ⟨s', hs', huri, ranges', hdraws', hsame⟩ := draws_from_reference hw h hranges hr
    refine ⟨s', hs', huri, hdraws'.fault, fun step => ?_⟩
    rw [hdraws'.items, List.mem_map, List.mem_map]
    simp only [hsame]

deriving instance DecidableEq for LocatedEdit, Step

/-- From the variable inside a closure or from the one outside that it captures,
the same three places are written. -/
theorem edits_from_occurrence_closure :
    let text := "$a; function () use ($a) { $a; };"
    let w : Workspace := ⟨[⟨.str "u", .str text, .str "", .int 1⟩]⟩
    let s : Source := ⟨.str "u", text⟩
    let e : LocatedEdit := ⟨.str "u", ⟨0, 2, by decide⟩, "$b"⟩
    w.Proper ∧ w.Shows s ∧
      .edit e ∈ ((standard.steps s 27 (.str "b")).draw w none).items ∧
      ((standard.steps s 27 (.str "b")).draw w none).items.length = 3 ∧
      ∀ step, step ∈ ((standard.steps s 0 (.str "b")).draw w none).items ↔
        step ∈ ((standard.steps s 27 (.str "b")).draw w none).items := by
  intro text w s e
  have hw : w.Proper :=
    ⟨List.pairwise_singleton _ _, fun d hd => ⟨"u", by rw [List.mem_singleton.mp hd]⟩,
      fun d hd => ⟨text, by rw [List.mem_singleton.mp hd]⟩⟩
  have hs : w.Shows s := ⟨_, List.find?_cons_of_pos (Json.sameKey_str.mpr rfl), rfl, rfl⟩
  have he : .edit e ∈ ((standard.steps s 27 (.str "b")).draw w none).items := by decide +kernel
  obtain ⟨⟨uri, text'⟩, ⟨d, hd, -, htext⟩, rfl, -, hsame⟩ := edits_from_occurrence hw hs he
  obtain rfl := List.mem_singleton.mp (Workspace.mem_of_find? hd)
  obtain rfl := Json.str.inj htext
  exact ⟨hw, hs, he, by decide +kernel, hsame⟩

end Chain

end RenameServer
