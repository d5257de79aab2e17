import RenameServer.Proofs.Canonical
import RenameServer.Proofs.Disjointness
import RenameServer.Proofs.LineEndTokens

/-!
The tokens of a source as a stream: they come in order and apart, each with the bytes of its
place, and a name ends only where no byte of a name follows. A token starts and ends between
two characters of a text and never inside of a line end.
-/
namespace RenameServer

open Utf8 (Bytes encodeChars)
open Lexeme Respelling

/-- A place where no line end is split is neither inside a character nor inside a line end. -/
theorem Position.aligned_of_noSplit {p x : List Char} (h : NoSplit p x) :
    AtBoundary (p ++ x) (byteLength p) ∧ ¬ InsideCrlf (p ++ x) (byteLength p) :=
  ⟨⟨p, x, rfl, rfl⟩, not_insideCrlf h (inside_zero x)⟩

/-! ### Tokens by lexeme -/

namespace Token

theorem ofLexemes_append (start : Nat) (before after : List Lexeme) :
    ofLexemes start (before ++ after) =
      ofLexemes start before ++
        ofLexemes (start + (before.flatMap Lexeme.bytes).length) after := by
  induction before generalizing start with
  | nil => rfl
  | cons l before ih =>
    rw [List.cons_append, ofLexemes, ih, ofLexemes, List.append_assoc, List.flatMap_cons,
      List.length_append, Nat.add_assoc]

/-- The tokens before a lexeme, of it and after it. -/
theorem scan_of_cut {source : Bytes} {before after : List Lexeme} {l : Lexeme}
    (h : cut source = before ++ l :: after) :
    let start := (before.flatMap Lexeme.bytes).length
    scan source = ofLexemes 0 before ++
      (ofLexeme start l ++ ofLexemes (start + l.bytes.length) after) := by
  rw [scan, h, ofLexemes_append, ofLexemes, Nat.zero_add]

/-- The kind of the token that a lexeme is as a whole. -/
def wholeKind? : Lexeme.Kind → Option Kind
  | .variable => some .variable
  | .identifier => some .identifier
  | .punct => some .punct
  | .comment | .single | .double | .other => none

theorem ofLexeme_whole {l : Lexeme} {kind : Kind} (h : wholeKind? l.kind = some kind)
    (start : Nat) : ofLexeme start l = [⟨kind, start, l.bytes⟩] := by
  obtain ⟨lexemeKind, bytes⟩ := l
  cases lexemeKind with
  | comment | single | double | other => cases h
  | «variable» | identifier | punct =>
    obtain rfl := Option.some.inj h
    rfl

/-! ### Tokens in their places -/

variable {source : Bytes} {t : Token}

/-- What follows a token in the bytes of its source. -/
theorem InBytes.exists_rest (h : InBytes 0 source t) :
    ∃ r, source.drop t.start = t.value ++ r ∧ source.drop t.stop = r ∧
      (t.kind ≠ .punct → r.head?.any isNameByte = false) := by
  obtain ⟨l, r, rfl, hstart, hr⟩ := h
  rw [Nat.zero_add] at hstart
  have hdrop : (l ++ (t.value ++ r)).drop t.start = t.value ++ r := by
    rw [← hstart, List.drop_left]
  refine ⟨r, hdrop, ?_, hr⟩
  rw [stop, ← List.drop_drop, hdrop, List.drop_left]

theorem extract_of_mem_scan (ht : t ∈ scan source) : source.extract t.start t.stop = t.value := by
  obtain ⟨r, hdrop, -, -⟩ := (inBytes_of_mem_scan ht).exists_rest
  rw [List.extract_eq_take_drop, hdrop, stop, Nat.add_sub_cancel_left, List.take_left]

/-- A name goes as far as it can. -/
theorem not_isNameByte_of_mem_scan (ht : t ∈ scan source) (hkind : t.kind ≠ .punct) {b : UInt8}
    (hb : source[t.stop]? = some b) : isNameByte b = false := by
  obtain ⟨r, -, hdrop, hr⟩ := (inBytes_of_mem_scan ht).exists_rest
  have hhead : r.head? = some b := by rw [← hdrop, List.head?_drop, hb]
  simpa [hhead] using hr hkind

/-- A token has no byte of a line end, so it neither starts nor ends in one. -/
theorem aligned_of_mem_scan {text : List Char} (ht : t ∈ scan (encodeChars text)) {o : Nat}
    (ho : o = t.start ∨ o = t.stop) :
    Position.AtBoundary text o ∧ ¬ Position.InsideCrlf text o := by
  obtain ⟨p, v, x, rfl, hstart, hvalue⟩ := inText_of_mem_scan ht
  have hbreak := LineEnd.noBreak_of_mem_scan ht
  have hne : v ≠ [] := by
    rintro rfl
    exact ((apart_scan _).spelled t ht).ne_nil hvalue.symm
  rw [Nat.zero_add] at hstart
  rcases ho with rfl | rfl
  · rw [← hstart]
    refine Position.aligned_of_noSplit fun _ hhead => ?_
    rw [List.head?_append_of_ne_nil _ hne] at hhead
    have hmem := Applying.mem_encodeChars (b := lineFeed) (List.mem_of_head? hhead) (by decide)
    exact (hbreak lineFeed (hvalue ▸ hmem)).2 rfl
  · have hstop : Position.byteLength (p ++ v) = t.stop := by
      rw [Position.byteLength_append, Position.byteLength_eq v, hvalue, hstart, stop]
    rw [← hstop, ← List.append_assoc]
    refine Position.aligned_of_noSplit fun hlast => ?_
    rw [List.getLast?_append_of_ne_nil _ hne] at hlast
    have hmem := Applying.mem_encodeChars (b := carriageReturn) (List.mem_of_getLast? hlast)
      (by decide)
    exact absurd rfl (hbreak carriageReturn (hvalue ▸ hmem)).1

/-- The tokens of a source are not empty, in order and apart, and each has the bytes of its
place. Names are whole names. The ends of a token are ends of characters, and no line end is
cut by them. No variable, identifier or mark of the source is missing. -/
theorem scan_wellFormed (source : Bytes) :
    (∀ t ∈ scan source,
        t.start < t.stop ∧ t.stop ≤ source.length ∧ source.extract t.start t.stop = t.value ∧
        (t.kind = .variable → ∃ name, t.value = dollar :: name ∧ IsName name) ∧
        (t.kind = .identifier → IsName t.value) ∧
        (t.kind ≠ .punct → ∀ b, source[t.stop]? = some b → isNameByte b = false)) ∧
      (scan source).Pairwise (fun t u => t.stop ≤ u.start) ∧
      (∀ text, source = Utf8.encode text → ∀ t ∈ scan source, ∀ o, o = t.start ∨ o = t.stop →
        Position.AtBoundary text.toList o ∧ ¬ Position.InsideCrlf text.toList o) ∧
      ∀ before l after, cut source = before ++ l :: after →
        ∀ kind, wholeKind? l.kind = some kind →
          ⟨kind, (before.flatMap Lexeme.bytes).length, l.bytes⟩ ∈ scan source := by
  refine ⟨fun t ht => ?_, ?_, ?_, ?_⟩
  · have hbounds := (apart_scan source).bounds t ht
    have hspelled := (apart_scan source).spelled t ht
    refine ⟨hbounds.2.1, hbounds.2.2, extract_of_mem_scan ht, fun hkind => ?_, fun hkind => ?_,
      fun hkind b => not_isNameByte_of_mem_scan ht hkind⟩
    · rwa [hkind] at hspelled
    · rwa [hkind] at hspelled
  · exact (pairwise_before (apart_scan source)).imp fun h => h.1
  · rintro text rfl t ht o ho
    rw [Utf8.encode_eq_encodeChars] at ht
    exact aligned_of_mem_scan ht ho
  · intro before l after hcut kind hkind
    rw [scan_of_cut hcut, ofLexeme_whole hkind]
    simp

/-- A variable in a literal, between a character of two bytes and a line end. -/
theorem scan_wellFormed_literal :
    let text := "$é;\r\nf(\"é$a\r\n\")"
    let source := Utf8.encode text
    let t : Token := ⟨.variable, 11, Utf8.encode "$a"⟩
    t ∈ scan source ∧ source.extract 11 13 = Utf8.encode "$a" ∧
      source[13]? = some carriageReturn ∧ isNameByte carriageReturn = false ∧
      Position.AtBoundary text.toList 11 ∧ ¬ Position.InsideCrlf text.toList 13 ∧
      (scan source).Pairwise (fun t u => t.stop ≤ u.start) ∧
      ⟨.variable, 0, Utf8.encode "$é"⟩ ∈ scan source := by
  intro text source t
  have ht : t ∈ scan source := by decide +kernel
  have hnext : source[13]? = some carriageReturn := by decide +kernel
  have hcut : cut source = ⟨.variable, Utf8.encode "$é"⟩ :: (cut source).tail := by
    decide +kernel
  obtain ⟨htokens, hpairwise, haligned, hwhole⟩ := scan_wellFormed source
  obtain ⟨-, -, hvalue, -, -, hended⟩ := htokens t ht
  exact ⟨ht, hvalue, hnext, hended (by decide) _ hnext, (haligned text rfl t ht _ (.inl rfl)).1,
    (haligned text rfl t ht _ (.inr rfl)).2, hpairwise, hwhole [] _ _ hcut _ rfl⟩

end Token

end RenameServer
