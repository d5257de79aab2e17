import Mathlib.Data.List.Induction
import RenameServer.Proofs.Boundaries
import RenameServer.Workspace

/-!
Edits as ranged changes. The positions of an edit are taken in the text before
all changes. Changes that are applied from the last to the first leave the text
before them alone, so each finds its positions where they were, and together
they do what splicing the edits into the bytes does.
-/
namespace RenameServer.Applying

open Utf8 (Bytes encodeChars)
open Position Respelling Splice

/-- An edit as a content change. -/
def asChange (e : PositionEdit) : Json :=
  .obj [("range", e.range.toJson), ("text", .str e.newText)]

/-- A ranged change looks up both ends and splices between them. -/
theorem changeText_asChange (text : String) (e : PositionEdit) :
    Workspace.changeText (.str text) (asChange e) =
      (do
        let start ← e.range.start.toOffset text
        let stop ← e.range.stop.toOffset text
        return .str (← Workspace.splice text start stop e.newText)) := rfl

/-- What is spliced at two cuts of a text, in whichever order they stand: the
characters before the first and those behind the second are kept. -/
theorem splice_of_splits {text p x q y : List Char} (hstart : text = p ++ x) (hstop : text = q ++ y)
    (new : String) :
    Workspace.splice (String.ofList text) (byteLength p) (byteLength q) new =
      .ok (String.ofList (p ++ (new.toList ++ y))) := by
  have htake : (encodeChars text).take (byteLength p) = encodeChars p := by
    rw [hstart, Utf8.encodeChars_append, byteLength_eq, List.take_left]
  have hdrop : (encodeChars text).drop (byteLength q) = encodeChars y := by
    rw [hstop, Utf8.encodeChars_append, byteLength_eq, List.drop_left]
  have hbytes : encodeChars p ++ Utf8.encode new ++ encodeChars y =
      encodeChars (p ++ (new.toList ++ y)) := by
    simp [Utf8.encode_eq_encodeChars]
  rw [Workspace.splice, Utf8.encode_ofList, htake, hdrop, hbytes, Utf8.decode_encodeChars]

/-- A part of a text that an edit can replace: some characters, at whose ends no
CRLF is split. -/
structure Placed (text : List Char) (e : TextEdit) (p v x : List Char) : Prop where
  text_eq : text = p ++ (v ++ x)
  start_eq : byteLength p = e.range.start
  stop_eq : byteLength (p ++ v) = e.range.stop
  head : v.head? ≠ some '\n'
  last : v.getLast? ≠ some '\r'
  nonempty : v ≠ []

theorem Placed.noSplit_start {text p v x : List Char} {e : TextEdit} (h : Placed text e p v x)
    (y : List Char) : NoSplit p (v ++ y) := by
  obtain ⟨c, rest, hv⟩ := List.exists_cons_of_ne_nil h.nonempty
  have hhead := h.head
  rw [hv] at hhead ⊢
  exact fun _ => hhead

theorem Placed.noSplit_stop {text p v x : List Char} {e : TextEdit} (h : Placed text e p v x)
    (y : List Char) : NoSplit (p ++ v) y := by
  intro hlast
  rw [List.getLast?_append, List.getLast?_eq_some_getLast h.nonempty, Option.some_or,
    ← List.getLast?_eq_some_getLast] at hlast
  exact absurd hlast h.last

/-- Both ends of an edit are found again in every text that agrees up to its end. -/
theorem Placed.range_toOffset {text p v x : List Char} {e : TextEdit} (h : Placed text e p v x)
    (y : List Char) :
    let range := ((LineIndex.ofText (String.ofList text)).edit e).range
    range.start.toOffset (String.ofList (p ++ (v ++ y))) = .ok (byteLength p) ∧
      range.stop.toOffset (String.ofList (p ++ (v ++ y))) = .ok (byteLength (p ++ v)) := by
  have hlength : (LineIndex.ofText (String.ofList text)).bytes.length = byteLength text := by
    rw [LineIndex.bytes_ofText, byteLength_eq]
  have hstart : min e.range.start (byteLength text) = byteLength p := by
    rw [← h.start_eq, h.text_eq, byteLength_append]
    omega
  have hstop : min e.range.stop (byteLength text) = byteLength (p ++ v) := by
    rw [← h.stop_eq, h.text_eq, ← List.append_assoc, byteLength_append (p ++ v)]
    omega
  refine ⟨?_, ?_⟩
  · simp only [LineIndex.edit, LineIndex.range, hlength, hstart]
    rw [h.text_eq]
    exact LineIndex.toOffset_locate (h.noSplit_start x) (h.noSplit_start y)
  · simp only [LineIndex.edit, LineIndex.range, hlength, hstop]
    rw [h.text_eq, ← List.append_assoc, ← List.append_assoc]
    exact LineIndex.toOffset_locate (h.noSplit_stop x) (h.noSplit_stop y)

/-- One change of a text that agrees with the first one up to the end of the edit. -/
theorem Placed.changeText {text p v x : List Char} {e : TextEdit} (h : Placed text e p v x)
    (y : List Char) :
    Workspace.changeText (.str (String.ofList (p ++ (v ++ y))))
        (asChange ((LineIndex.ofText (String.ofList text)).edit e)) =
      .ok (.str (String.ofList (p ++ (e.replacement.toList ++ y)))) := by
  obtain ⟨hstart, hstop⟩ := h.range_toOffset y
  have hsplice := splice_of_splits (p := p) rfl (List.append_assoc p v y).symm e.replacement
  rw [changeText_asChange, hstart, hstop]
  exact congrArg (fun r : Except Fault String => r >>= fun result => pure (Json.str result)) hsplice

/-- A shorter beginning of a text is a beginning of a longer one. -/
theorem exists_append_of_byteLength_le {a b p x : List Char} (h : p ++ x = a ++ b)
    (hle : byteLength a ≤ byteLength p) : ∃ m, p = a ++ m ∧ b = m ++ x := by
  rcases List.append_eq_append_iff.mp h with ⟨m, rfl, rfl⟩ | ⟨m, rfl, rfl⟩
  · have hnil : m = [] := eq_nil_of_byteLength_eq_zero (by rw [byteLength_append] at hle; omega)
    exact ⟨[], by simp [hnil], by simp [hnil]⟩
  · exact ⟨m, rfl, rfl⟩

/-- Applying edits from the last to the first, with anything behind them. -/
theorem foldlM_changeText {text : List Char} {es : List TextEdit}
    (hplaced : ∀ e ∈ es, ∃ p v x, Placed text e p v x) (p x y : List Char) (htext : text = p ++ x)
    (hwithin : Within 0 (byteLength p) es) :
    ∃ r, (es.reverse.map fun e => asChange ((LineIndex.ofText (String.ofList text)).edit e)).foldlM
        Workspace.changeText (.str (String.ofList (p ++ y))) = .ok (.str (String.ofList r)) ∧
      encodeChars r = Splice.splice (encodeChars p) es ++ encodeChars y := by
  induction es using List.reverseRecOn generalizing p x y with
  | nil => exact ⟨p ++ y, rfl, by rw [Utf8.encodeChars_append]; rfl⟩
  | append_singleton es e ih =>
    obtain ⟨q, v, z, hplace⟩ := hplaced e (by simp)
    obtain ⟨hbefore, hrange, hlimit⟩ := hwithin.of_append_singleton
    have htext' : p ++ x = (q ++ v) ++ z := by
      rw [← htext, hplace.text_eq, List.append_assoc]
    obtain ⟨m, rfl, hz⟩ := exists_append_of_byteLength_le htext' (hplace.stop_eq ▸ hlimit)
    obtain ⟨r, hfold, hr⟩ := ih (fun d hd => hplaced d (List.mem_append_left _ hd)) q (v ++ z)
      (e.replacement.toList ++ (m ++ y)) hplace.text_eq (hplace.start_eq ▸ hbefore)
    refine ⟨r, ?_, ?_⟩
    · rw [List.reverse_append, List.reverse_singleton, List.singleton_append, List.map_cons,
        List.foldlM_cons, List.append_assoc, List.append_assoc, hplace.changeText (m ++ y)]
      exact hfold
    · have hsplice := splice_append_singleton (encodeChars v) (encodeChars m)
        (s := encodeChars q) (byteLength_eq q ▸ hplace.start_eq ▸ hbefore)
        (by rw [← hplace.start_eq, byteLength_eq])
        (by rw [← hplace.stop_eq, byteLength_append, byteLength_eq, byteLength_eq]) hrange
      rw [hr, Utf8.encodeChars_append, Utf8.encodeChars_append, Utf8.encodeChars_append,
        Utf8.encodeChars_append, List.append_assoc, hsplice, Utf8.encode_eq_encodeChars]
      simp only [List.append_assoc]

/-- The bytes of a variable or an identifier. -/
theorem byte_of_spelled {kind : Token.Kind} {bytes : Bytes} (hkind : kind ≠ .punct)
    (h : Spelled kind bytes) :
    ∀ b ∈ bytes, b = Lexeme.dollar ∨ Lexeme.isNameByte b = true := by
  intro b hb
  cases kind with
  | «variable» =>
    obtain ⟨name, rfl, hname⟩ := h
    exact (List.mem_cons.mp hb).imp id (hname.isNameByte b)
  | identifier => exact .inr (h.isNameByte b hb)
  | punct => exact absurd rfl hkind

theorem mem_encodeChars {c : Char} {text : List Char} (hc : c ∈ text) {b : UInt8}
    (hb : b ∈ String.utf8EncodeChar c) : b ∈ encodeChars text :=
  List.mem_flatMap.mpr ⟨c, hc, hb⟩

/-- A variable or an identifier is a part of the text that an edit can replace. -/
theorem exists_placed {text : List Char} {t : Token} (ht : t ∈ Token.scan (encodeChars text))
    (hkind : t.kind ≠ .punct) (name : String) : ∃ p v x, Placed text ⟨t.range, name⟩ p v x := by
  obtain ⟨p, v, x, htext, hstart, hvalue⟩ := Token.inText_of_mem_scan ht
  have hspelled := (apart_scan (encodeChars text)).spelled t ht
  have hbyte := byte_of_spelled hkind hspelled
  rw [Nat.zero_add] at hstart
  refine ⟨p, v, x, htext, hstart, ?_, fun hhead => ?_, fun hlast => ?_, ?_⟩
  · rw [byteLength_append, byteLength_eq v, hvalue, hstart]
    rfl
  · have hmem := mem_encodeChars (b := 0x0a) (List.mem_of_head? hhead) (by decide)
    exact absurd (hbyte 0x0a (hvalue ▸ hmem)) (by decide)
  · have hmem := mem_encodeChars (b := 0x0d) (List.mem_of_getLast? hlast) (by decide)
    exact absurd (hbyte 0x0d (hvalue ▸ hmem)) (by decide)
  · rintro rfl
    exact hspelled.ne_nil hvalue.symm

/-- New spellings, applied as changes from the last to the first, are spliced
into the bytes of the text. -/
theorem exists_changed_text {spell : Token → Option String} (hspell : KeepsKinds spell)
    (text : String) :
    ∃ result,
      ((edits spell (Token.scan (Utf8.encode text))).reverse.map fun e =>
          asChange ((LineIndex.ofText text).edit e)).foldlM Workspace.changeText (.str text) =
        .ok (.str result) ∧
      Utf8.encode result =
        Splice.splice (Utf8.encode text) (edits spell (Token.scan (Utf8.encode text))) := by
  have hplaced : ∀ e ∈ edits spell (Token.scan (encodeChars text.toList)),
      ∃ p v x, Placed text.toList e p v x := by
    intro e he
    obtain ⟨t, ht, hedit⟩ := List.mem_filterMap.mp he
    obtain ⟨s, hs, rfl⟩ := Option.map_eq_some_iff.mp hedit
    exact exists_placed ht (hspell t s hs).1 s
  have hwithin : Within 0 (byteLength text.toList)
      (edits spell (Token.scan (encodeChars text.toList))) :=
    byteLength_eq text.toList ▸ (apart_scan _).within
  obtain ⟨r, hfold, hr⟩ := foldlM_changeText hplaced text.toList [] []
    (List.append_nil _).symm hwithin
  rw [List.append_nil, String.ofList_toList] at hfold
  refine ⟨String.ofList r, hfold, ?_⟩
  rw [Utf8.encode_ofList, hr]
  simp [Utf8.encode_eq_encodeChars]

end RenameServer.Applying
