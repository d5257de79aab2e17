import RenameServer.Proofs.Streams
import RenameServer.Proofs.TokenStructure
import RenameServer.Rename.Reference
import RenameServer.Rename.Variable

/-!
What the two strategies write. Both give the tokens that they found a new
spelling, the variable strategy in the document of the cursor, the reference
strategy also in the documents that are open when it looks. Seen from one
document, the edits are those of one safe spelling in one text.
-/
namespace RenameServer

/-- Variables first, then other names. -/
def Chain.standard : Renamer := Chain.renamer [Variable.renamer, Reference.renamer]

open Splice Respelling

theorem Json.same_str {x : Json} {u : String} : x.same (.str u) = true ↔ x = .str u := by
  cases x <;> simp [Json.same, Json.asInt?]

theorem Json.str_same {x : Json} {u : String} : (Json.str u).same x = true ↔ x = .str u := by
  cases x <;> simp [Json.same, Json.asInt?, eq_comm]

/-- No two open documents have the same text as their URI. -/
def Workspace.Keyed (w : Workspace) : Prop :=
  w.documents.Pairwise fun d e => ∀ u : String, ¬(d.uri = .str u ∧ e.uri = .str u)

namespace Workspace

variable {u : String} {d : Document}

theorem find?_cons_of_eq (h : d.uri = .str u) (rest : List Document) :
    find? ⟨d :: rest⟩ (.str u) = some d :=
  List.find?_cons_of_pos (Json.sameKey_str.mpr h)

theorem find?_cons_of_ne (h : d.uri ≠ .str u) (rest : List Document) :
    find? ⟨d :: rest⟩ (.str u) = find? ⟨rest⟩ (.str u) :=
  List.find?_cons_of_neg (mt Json.sameKey_str.mp h)

theorem uri_of_find? {w : Workspace} (h : w.find? (.str u) = some d) : d.uri = .str u := by
  have hsame := List.find?_some (p := fun e : Document => e.uri.sameKey (.str u)) h
  exact Json.sameKey_str.mp hsame

theorem mem_of_find? {w : Workspace} {uri : Json} (h : w.find? uri = some d) : d ∈ w.documents :=
  List.mem_of_find?_eq_some h

end Workspace

/-- The edits of one document among the steps of a rename. -/
def Step.editAt? (u : String) : Step → Option TextEdit
  | .edit e => if e.uri.same (.str u) then some e.textEdit else none
  | .failure _ => none

def Step.editsAt (u : String) (items : List Step) : List TextEdit := items.filterMap (editAt? u)

theorem Step.editsAt_append (u : String) (xs ys : List Step) :
    editsAt u (xs ++ ys) = editsAt u xs ++ editsAt u ys :=
  List.filterMap_append

namespace Strategy

/-- An edit in a document, as a step. -/
def located (uri : Json) (e : TextEdit) : Step := .edit ⟨uri, e.range, e.replacement⟩

theorem editsAt_located_same (u : String) (es : List TextEdit) :
    Step.editsAt u (es.map (located (.str u))) = es := by
  have hsame : (Json.str u).same (.str u) = true := Json.same_str.mpr rfl
  simp [Step.editsAt, List.filterMap_map, Function.comp_def, located, Step.editAt?, hsame,
    LocatedEdit.textEdit]

theorem editsAt_located_other {u : String} {uri : Json} (h : uri ≠ .str u) (es : List TextEdit) :
    Step.editsAt u (es.map (located uri)) = [] := by
  have hsame : uri.same (.str u) = false := Bool.eq_false_iff.mpr (mt Json.same_str.mp h)
  simp [Step.editsAt, located, Step.editAt?, hsame]

/-- A token that is spelled like the target: a variable byte for byte, an
identifier up to the case of ASCII letters. -/
def SameName (target t : Token) : Prop :=
  (t.kind = .variable ∧ target.kind = .variable ∧ t.value = target.value) ∨
    (t.kind = .identifier ∧ target.kind = .identifier ∧
      Token.lowerBytes t.value = Token.lowerBytes target.value)

/-- Spellings that a strategy may write for a cursor: they are safe, and only
tokens that are spelled like the one under the cursor get them. -/
structure Writes (s : Source) (offset : Int) (spell : Token → Option String) : Prop where
  safe : Safe spell
  found : ∀ t name, spell t = some name →
    ∃ target, Token.at? s.tokens offset target.kind = some target ∧ SameName target t

/-- One new spelling for some of the tokens. -/
def mark (found : Token → Bool) (name : String) (t : Token) : Option String :=
  if found t then some name else none

theorem edits_mark (found : Token → Bool) (name : String) (tokens : List Token) :
    edits (mark found name) tokens = (tokens.filter found).map fun t => ⟨t.range, name⟩ := by
  induction tokens with
  | nil => rfl
  | cons t rest ih =>
    by_cases h : found t = true
    · rw [edits_cons_some (if_pos h), ih, List.filter_cons_of_pos h, List.map_cons]
    · rw [edits_cons_none (if_neg h), ih, List.filter_cons_of_neg h]

theorem mark_eq_some {found : Token → Bool} {name s : String} {t : Token}
    (h : mark found name t = some s) : found t = true ∧ name = s := by
  rw [mark] at h
  split at h
  · next hfound => exact ⟨hfound, Option.some.inj h⟩
  · cases h

theorem isName_of_isIdentifier {name : String} (h : Name.isIdentifier name = true) :
    Lexeme.IsName (Utf8.encode name) := by
  rw [Name.isIdentifier] at h
  cases hbytes : Utf8.encode name with
  | nil => rw [hbytes] at h; cases h
  | cons b rest =>
    rw [hbytes, Bool.and_eq_true, List.all_eq_true] at h
    exact ⟨b, rest, rfl, h.1, h.2⟩

theorem encode_dollar (name : String) :
    Utf8.encode ("$" ++ name) = Lexeme.dollar :: Utf8.encode name := by
  rw [Utf8.encode, String.toList_append, List.flatMap_append]
  rfl

theorem kind_of_at? {tokens : List Token} {offset : Int} {kind : Token.Kind} {t : Token}
    (h : Token.at? tokens offset kind = some t) : t.kind = kind ∧ t ∈ tokens := by
  have hmem : t ∈ tokens.filter fun t => t.kind = kind := by
    rw [Token.at?] at h
    split at h
    · next hfind =>
      cases h
      exact List.mem_of_find?_eq_some hfind
    · exact (List.mem_filter.mp (List.mem_of_getLast? h)).1
  simpa using (List.mem_filter.mp hmem).symm

theorem writes_none (s : Source) (offset : Int) : Writes s offset fun _ => none where
  safe := ⟨fun _ s h => absurd h.symm (Option.some_ne_none s),
    fun _ s h => absurd h.symm (Option.some_ne_none s)⟩
  found := fun _ s h => absurd h.symm (Option.some_ne_none s)

theorem edits_none (tokens : List Token) : edits (fun _ => none) tokens = [] := by
  simp [edits]

/-- The edits that one document gets from a rename between the moments `p` and
`q`. The document of the cursor is the source; another one is written, if at
all, in the text that it has when it is looked at. -/
def WrittenAt (world : Nat → Workspace) (p q : Nat) (s : Source) (offset : Int) (u : String)
    (es : List TextEdit) : Prop :=
  ∃ spell, Writes s offset spell ∧ (s.uri = .str u → es = edits spell s.tokens) ∧
    (s.uri ≠ .str u → es = [] ∨ ∃ i d text, p ≤ i ∧ i ≤ q ∧
      (world i).find? (.str u) = some d ∧ d.text = .str text ∧
      es = edits spell (Token.scan (Utf8.encode text)))

theorem WrittenAt.within {world : Nat → Workspace} {p q : Nat} {s : Source} {offset : Int}
    {u : String} {es : List TextEdit} (h : WrittenAt world p q s offset u es) :
    ∃ limit, Within 0 limit es := by
  obtain ⟨spell, -, hhere, hthere⟩ := h
  by_cases hu : s.uri = .str u
  · rw [hhere hu]
    exact ⟨_, (apart_scan _).within⟩
  · rcases hthere hu with rfl | ⟨i, d, text, -, -, -, -, rfl⟩
    · exact ⟨0, Nat.le_refl 0⟩
    · exact ⟨_, (apart_scan _).within⟩

theorem writtenAt_nil (world : Nat → Workspace) (p q : Nat) (s : Source) (offset : Int)
    (u : String) : WrittenAt world p q s offset u [] :=
  ⟨fun _ => none, writes_none s offset, fun _ => (edits_none _).symm, fun _ => .inl rfl⟩

theorem writtenAt_here (world : Nat → Workspace) (p q : Nat) {s : Source} {offset : Int}
    {spell : Token → Option String} (h : Writes s offset spell) (u : String) :
    WrittenAt world p q s offset u
      (Step.editsAt u ((edits spell s.tokens).map (located s.uri))) := by
  refine ⟨spell, h, fun hu => ?_, fun hu => .inl (editsAt_located_other hu _)⟩
  rw [hu]
  exact editsAt_located_same u _

theorem writtenAt_fail {world : Nat → Workspace} {p q : Nat} {message : Str}
    {kind : FailureKind} {items : List Step}
    (h : (Renamer.fail message kind).Gives world p q items) {s : Source} {offset : Int}
    (u : String) : WrittenAt world p q s offset u (Step.editsAt u items) := by
  cases h with
  | item _ _ h =>
    cases h
    exact writtenAt_nil ..

end Strategy

namespace Variable

open Strategy

/-- A name has no dollar sign in front that could be left out. -/
theorem bareName_of_isIdentifier {name : String} (h : Name.isIdentifier name = true) :
    bareName name = name := by
  unfold bareName
  split
  · next rest hlist =>
    obtain ⟨b, more, hbytes, hb, -⟩ := Strategy.isName_of_isIdentifier h
    have hdollar : b = Lexeme.dollar := by
      rw [Utf8.encode_eq_encodeChars, hlist, Utf8.encodeChars_cons] at hbytes
      exact (List.cons.inj hbytes).1.symm
    rw [hdollar] at hb
    cases hb
  · rfl

theorem writes_mark {s : Source} {offset : Int} {target : Token} {name : String}
    {found : Token → Bool} (htarget : Token.at? s.tokens offset .variable = some target)
    (hname : Name.isIdentifier name = true)
    (hfound : ∀ t, found t = true → t.kind = .variable ∧ t.value = target.value) :
    Writes s offset (mark found ("$" ++ name)) := by
  have hkind := (kind_of_at? htarget).1
  refine ⟨⟨fun t n h => ?_, fun t n h hidentifier => ?_⟩, fun t n h => ?_⟩
  · obtain ⟨hmarked, rfl⟩ := mark_eq_some h
    rw [(hfound t hmarked).1]
    exact ⟨by decide, _, encode_dollar name, isName_of_isIdentifier hname⟩
  · rw [(hfound t (mark_eq_some h).1).1] at hidentifier
    cases hidentifier
  · obtain ⟨hvariable, hvalue⟩ := hfound t (mark_eq_some h).1
    exact ⟨target, by rw [hkind, htarget], .inl ⟨hvariable, hkind, hvalue⟩⟩

theorem exists_occurrences_eq_filter (tokens : List Token) (target : Token) :
    ∃ found : Token → Bool, occurrences tokens target = tokens.filter found ∧
      ∀ t, found t = true → t.kind = .variable ∧ t.value = target.value := by
  refine ⟨_, rfl, fun t ht => ?_⟩
  obtain ⟨hkind, hvalue, -⟩ := of_decide_eq_true ht
  exact ⟨hkind, hvalue⟩

/-- The strategy fails, or it writes the occurrences of the variable under the cursor. -/
theorem steps_cases (s : Source) (offset : Int) (newName : Json) :
    (∃ message kind, steps s offset newName = Renamer.fail message kind) ∨
      (∃ fault, steps s offset newName = .raise fault) ∨
      ∃ target name, Token.at? s.tokens offset .variable = some target ∧
        Name.isIdentifier name = true ∧
        steps s offset newName = .ofList
          ((occurrences s.tokens target).map fun t => .edit ⟨s.uri, t.range, "$" ++ name⟩) := by
  cases htarget : Token.at? s.tokens offset .variable with
  | none => exact .inl ⟨_, _, by simp only [steps, htarget]; rfl⟩
  | some target =>
    by_cases hthis : target.value = thisWord
    · exact .inl ⟨_, _, by simp only [steps, htarget, if_pos hthis]; rfl⟩
    · cases newName with
      | str newName =>
        by_cases hname : (!Name.isIdentifier (bareName newName) || bareName newName = "this") = true
        · exact .inl ⟨_, _, by simp only [steps, htarget, if_neg hthis, if_pos hname]; rfl⟩
        · have hidentifier : Name.isIdentifier (bareName newName) = true := by
            simp only [Bool.or_eq_true, Bool.not_eq_true', not_or] at hname
            simpa using hname.1
          refine .inr (.inr ⟨target, bareName newName, rfl, hidentifier, ?_⟩)
          simp only [steps, htarget, if_neg hthis, if_neg hname]
      | _ => exact .inr (.inl ⟨_, by simp only [steps, htarget, if_neg hthis]; rfl⟩)

theorem writtenAt_steps {world : Nat → Workspace} {p q : Nat} {s : Source} {offset : Int}
    {newName : Json} {items : List Step} (h : (steps s offset newName).Gives world p q items)
    (u : String) : WrittenAt world p q s offset u (Step.editsAt u items) := by
  rcases steps_cases s offset newName with
    ⟨message, kind, hsteps⟩ | ⟨fault, hsteps⟩ | ⟨target, name, htarget, hname, hsteps⟩
  · rw [hsteps] at h
    exact writtenAt_fail h u
  · rw [hsteps] at h
    cases h
    exact writtenAt_nil ..
  · rw [hsteps, Stream.ofList_eq_prepend] at h
    obtain ⟨r, ys, -, hdone, rfl⟩ := h.of_prepend
    cases hdone
    obtain ⟨found, hoccurrences, hfound⟩ := exists_occurrences_eq_filter s.tokens target
    have hhere := writtenAt_here world p q (writes_mark htarget hname hfound) u
    rw [edits_mark, List.map_map] at hhere
    rw [List.append_nil, hoccurrences]
    exact hhere

end Variable

namespace Reference

open Strategy

/-- A found range with the name that is written there. -/
def write (name : String) (r : LocatedRange) : Step := .edit ⟨r.uri, r.range, name⟩

/-- The identifiers that match a spelling. -/
def isMatch (spelling : Utf8.Bytes) (t : Token) : Bool :=
  t.kind = .identifier ∧ Token.lowerBytes t.value = Token.lowerBytes spelling

theorem uri_of_matching {uri : Json} {spelling : Utf8.Bytes} {tokens : List Token} :
    ∀ r ∈ matching uri spelling tokens, r.uri = uri := by
  intro r hr
  obtain ⟨t, -, rfl⟩ := List.mem_map.mp hr
  rfl

theorem map_matching (uri : Json) (spelling : Utf8.Bytes) (tokens : List Token) (name : String) :
    (matching uri spelling tokens).map (write name) =
      (edits (mark (isMatch spelling) name) tokens).map (located uri) := by
  rw [edits_mark, matching, List.map_map, List.map_map]
  rfl

theorem writes_mark {s : Source} {offset : Int} {target : Token} {name : String}
    (htarget : Token.at? s.tokens offset .identifier = some target)
    (hreserved : Name.isReserved target.name = false)
    (hname : Name.isIdentifier name = true) (hreserved' : Name.isReserved name = false) :
    Writes s offset (mark (isMatch target.value) name) := by
  have hkind := (kind_of_at? htarget).1
  have hfound : ∀ t n, mark (isMatch target.value) name t = some n → name = n ∧
      t.kind = .identifier ∧ Token.lowerBytes t.value = Token.lowerBytes target.value := by
    intro t n h
    obtain ⟨hmatch, rfl⟩ := mark_eq_some h
    exact ⟨rfl, of_decide_eq_true hmatch⟩
  refine ⟨⟨fun t n h => ?_, fun t n h hidentifier => ?_⟩, fun t n h => ?_⟩
  · obtain ⟨rfl, hidentifier, -⟩ := hfound t n h
    rw [hidentifier]
    exact ⟨by decide, isName_of_isIdentifier hname⟩
  · obtain ⟨rfl, -, hlower⟩ := hfound t n h
    have htext : Utf8.lossy (Utf8.encode name) = name := by
      rw [Utf8.lossy, Utf8.encode_eq_encodeChars, Utf8.decodeLossy_encodeChars,
        String.ofList_toList]
    refine ⟨?_, Scopes.noWord_of_not_reserved (by rw [htext, hreserved'])⟩
    rw [Scopes.NoWord, hlower]
    exact Scopes.noWord_of_not_reserved hreserved
  · obtain ⟨rfl, hidentifier, hlower⟩ := hfound t n h
    exact ⟨target, by rw [hkind, htarget], .inr ⟨hidentifier, hkind, hlower⟩⟩

/-- The strategy fails, or it writes the references of the name under the cursor. -/
theorem steps_cases (s : Source) (offset : Int) (newName : Json) :
    (∃ message kind, steps s offset newName = Renamer.fail message kind) ∨
      (∃ fault, steps s offset newName = .raise fault) ∨
      ∃ (target : Token) (name : String), Writes s offset (mark (isMatch target.value) name) ∧
        steps s offset newName = Stream.map (write name)
          (.prepend (matching s.uri target.value s.tokens)
            (.look fun w => elsewhere s.uri target.value w.documents)) := by
  cases htarget : Token.at? s.tokens offset .identifier with
  | none => exact .inl ⟨_, _, by simp only [steps, htarget]; rfl⟩
  | some target =>
    by_cases hreserved : Name.isReserved target.name = true
    · exact .inl ⟨_, _, by simp only [steps, htarget, if_pos hreserved]; rfl⟩
    · cases newName with
      | str name =>
        by_cases hname : (!Name.isIdentifier name || Name.isReserved name) = true
        · exact .inl ⟨_, _, by simp only [steps, htarget, if_neg hreserved, if_pos hname]; rfl⟩
        · have hvalid : Name.isIdentifier name = true ∧ Name.isReserved name = false := by
            simpa using hname
          refine .inr (.inr ⟨target, name, writes_mark htarget (by simpa using hreserved) hvalid.1
            hvalid.2, ?_⟩)
          simp only [steps, find, htarget, if_neg hreserved, if_neg hname]
          rfl
      | _ => exact .inr (.inl ⟨_, by simp only [steps, htarget, if_neg hreserved]; rfl⟩)

/-- What the first of the other documents adds: it is skipped or searched, unless its
text cannot be. -/
theorem elsewhere_cases (uri : Json) (spelling : Utf8.Bytes) (d : Document)
    (rest : List Document) :
    (d.uri.same uri = true ∧
        elsewhere uri spelling (d :: rest) = elsewhere uri spelling rest) ∨
      ¬d.uri.same uri = true ∧
        ((∃ text, d.text = .str text ∧ elsewhere uri spelling (d :: rest) =
            .prepend (matching d.uri spelling (Source.tokens ⟨d.uri, text⟩))
              (elsewhere uri spelling rest)) ∨
          ∃ fault, elsewhere uri spelling (d :: rest) = .raise fault) := by
  rw [elsewhere]
  by_cases hskip : d.uri.same uri = true
  · exact .inl ⟨hskip, if_pos hskip⟩
  · rw [if_neg hskip]
    refine .inr ⟨hskip, ?_⟩
    cases d.text with
    | str text => exact .inl ⟨text, rfl, rfl⟩
    | _ => exact .inr ⟨_, rfl⟩

/-- One document among others of which at most one has the URI. -/
theorem editsAt_elsewhere {world : Nat → Workspace} {p q : Nat} {uri : Json}
    {spelling : Utf8.Bytes} {documents : List Document} {ranges : List LocatedRange}
    (h : (elsewhere uri spelling documents).Gives world p q ranges)
    (hkeyed : Workspace.Keyed ⟨documents⟩) (u name : String) :
    Step.editsAt u (ranges.map (write name)) = [] ∨ uri ≠ .str u ∧
      ∃ d text, Workspace.find? ⟨documents⟩ (.str u) = some d ∧ d.text = .str text ∧
        Step.editsAt u (ranges.map (write name)) =
          edits (mark (isMatch spelling) name) (Token.scan (Utf8.encode text)) := by
  induction documents generalizing p ranges with
  | nil =>
    cases h
    exact .inl rfl
  | cons d rest ih =>
    obtain ⟨hfirst, hrest⟩ := List.pairwise_cons.mp hkeyed
    rcases elsewhere_cases uri spelling d rest with
      ⟨hskip, heq⟩ | ⟨hskip, ⟨text, htext, heq⟩ | ⟨fault, heq⟩⟩
    · rw [heq] at h
      rcases ih h hrest with hnil | ⟨hu, e, text, he, hedits⟩
      · exact .inl hnil
      · refine .inr ⟨hu, e, text, ?_, hedits⟩
        have hd : d.uri ≠ .str u := by
          intro hd
          rw [hd] at hskip
          exact hu (Json.str_same.mp hskip)
        rw [Workspace.find?_cons_of_ne hd, he]
    · rw [heq] at h
      obtain ⟨r, ys, -, hys, rfl⟩ := h.of_prepend
      rw [List.map_append, Step.editsAt_append, map_matching]
      by_cases hd : d.uri = .str u
      · have hnone : Step.editsAt u (ys.map (write name)) = [] := by
          rcases ih hys hrest with hnil | ⟨-, e, text, he, -⟩
          · exact hnil
          · exact absurd ⟨hd, Workspace.uri_of_find? he⟩ (hfirst e (Workspace.mem_of_find? he) u)
        have hu : uri ≠ .str u := fun hu => hskip (hu ▸ Json.same_str.mpr hd)
        rw [hnone, hd, editsAt_located_same, List.append_nil]
        exact .inr ⟨hu, d, text, Workspace.find?_cons_of_eq hd rest, htext, rfl⟩
      · rw [editsAt_located_other hd, List.nil_append, Workspace.find?_cons_of_ne hd]
        exact ih hys hrest
    · rw [heq] at h
      cases h
      exact .inl rfl

theorem writtenAt_steps {world : Nat → Workspace} (hworld : ∀ n, (world n).Keyed) {p q : Nat}
    {s : Source} {offset : Int} {newName : Json} {items : List Step}
    (h : (steps s offset newName).Gives world p q items) (u : String) :
    WrittenAt world p q s offset u (Step.editsAt u items) := by
  rcases steps_cases s offset newName with
    ⟨message, kind, hsteps⟩ | ⟨fault, hsteps⟩ | ⟨target, name, hwrites, hsteps⟩
  · rw [hsteps] at h
    exact writtenAt_fail h u
  · rw [hsteps] at h
    cases h
    exact writtenAt_nil ..
  · rw [hsteps] at h
    obtain ⟨ranges, hranges, rfl⟩ := h.of_map
    obtain ⟨i, ys, hi, hlook, rfl⟩ := hranges.of_prepend
    have hle := hlook.le
    cases hlook with
    | look hys =>
      rw [List.map_append, Step.editsAt_append, map_matching]
      refine ⟨mark (isMatch target.value) name, hwrites, fun hu => ?_, fun hu => ?_⟩
      · have hnone : Step.editsAt u (ys.map (write name)) = [] :=
          (editsAt_elsewhere hys (hworld i) u name).resolve_right fun h => h.1 hu
        rw [hnone, List.append_nil, hu, editsAt_located_same]
      · rw [editsAt_located_other hu, List.nil_append]
        rcases editsAt_elsewhere hys (hworld i) u name with hnil | ⟨-, d, text, hd, htext, hes⟩
        · exact .inl hnil
        · exact .inr ⟨i, d, text, hi, hle, hd, htext, hes⟩

end Reference

namespace Strategy

theorem writtenAt_of_gives {world : Nat → Workspace} (hworld : ∀ n, (world n).Keyed) {p q : Nat}
    {renamer : Renamer} (hrenamer : renamer ∈ [Variable.renamer, Reference.renamer]) {s : Source}
    {offset : Int} {newName : Json} {items : List Step}
    (h : (renamer.steps s offset newName).Gives world p q items) (u : String) :
    WrittenAt world p q s offset u (Step.editsAt u items) := by
  simp only [List.mem_cons, List.not_mem_nil, or_false] at hrenamer
  rcases hrenamer with rfl | rfl
  · exact Variable.writtenAt_steps h u
  · exact Reference.writtenAt_steps hworld h u

/-- The text at a URI as a rename sees it: the source stands for its document. -/
def textAt (s : Source) (w : Workspace) (u : String) : Option Json :=
  if s.uri.same (.str u) then some (.str s.text) else (w.find? (.str u)).map (·.text)

/-- A rename leaves the structure of every document that it touches alone. -/
theorem rename_keepsStructure {w : Workspace} (hw : w.Keyed) {renamer : Renamer}
    (hrenamer : renamer ∈ [Variable.renamer, Reference.renamer]) (s : Source) (offset : Int)
    (newName : Json) {u text : String} (htext : textAt s w u = some (.str text)) :
    KeepsStructure (Utf8.encode text)
      (Step.editsAt u ((renamer.steps s offset newName).draw w none).items) := by
  have hgives := Stream.gives_draw w (renamer.steps s offset newName)
  obtain ⟨spell, hwrites, hhere, hthere⟩ := writtenAt_of_gives (fun _ => hw) hrenamer hgives u
  rw [textAt] at htext
  by_cases hu : s.uri = .str u
  · rw [if_pos (Json.same_str.mpr hu)] at htext
    cases htext
    rw [hhere hu]
    exact hwrites.safe.keepsStructure _
  · rw [if_neg (mt Json.same_str.mp hu)] at htext
    rcases hthere hu with hnil | ⟨i, d, text', -, -, hd, htext', hes⟩
    · rw [hnil, ← edits_none (Token.scan (Utf8.encode text))]
      exact (writes_none s offset).safe.keepsStructure _
    · rw [hd, Option.map_some, htext'] at htext
      cases htext
      rw [hes]
      exact hwrites.safe.keepsStructure _

/-- A call in another document follows the function that is renamed. -/
theorem rename_keepsStructure_call :
    let w : Workspace := ⟨[⟨.str "b", .str "echo f();", .null, .int 1⟩]⟩
    let s : Source := ⟨.str "a", "function f() {}"⟩
    let es := Step.editsAt "b" ((Reference.renamer.steps s 9 (.str "g")).draw w none).items
    es = [⟨⟨5, 6, by decide⟩, "g"⟩] ∧ KeepsStructure (Utf8.encode "echo f();") es := by
  refine ⟨by decide +kernel, rename_keepsStructure ?_ ?_ _ _ _ ?_⟩
  · exact List.pairwise_singleton _ _
  · exact List.mem_cons_of_mem _ (List.mem_cons_self ..)
  · simp [textAt, Workspace.find?, Json.same, Json.sameKey, Json.key?]

end Strategy

end RenameServer
