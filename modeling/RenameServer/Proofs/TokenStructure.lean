import RenameServer.Proofs.Scoping

/-!
What edits must do to a source to leave its structure alone: they cover whole
tokens, the source scans to the same tokens in their new spellings, all other
bytes stay, and the scopes move along. New spellings that keep the kinds of
tokens and touch no word of a declaration are written by such edits.
-/
namespace RenameServer.Respelling

open Utf8 (Bytes)
open Splice Lexeme

/-- The token that becomes of another one under edits. -/
def edited (es : List TextEdit) (t : Token) : Token :=
  ⟨t.kind, shift es t.start,
    match es.find? fun e => e.range = t.range with
    | some e => Utf8.encode e.replacement
    | none => t.value⟩

/-- Edits that leave the structure of a source alone. -/
structure KeepsStructure (source : Bytes) (es : List TextEdit) : Prop where
  covers : ∀ e ∈ es, ∃ t ∈ Token.scan source, t.range = e.range
  tokens : Token.scan (splice source es) = (Token.scan source).map (edited es)
  bytes : ∀ o, (∀ e ∈ es, ¬(e.range.start ≤ o ∧ o < e.range.stop)) →
    (splice source es)[shift es o]? = source[o]?
  scopes : Scopes.ofTokens (Token.scan (splice source es)) =
    (Scopes.ofTokens (Token.scan source)).image (shift es)

/-- New spellings that keep the kinds of tokens and neither take away nor make
a word of a declaration. -/
structure Safe (spell : Token → Option String) : Prop where
  keepsKinds : KeepsKinds spell
  noWord : ∀ t s, spell t = some s → t.kind = .identifier →
    Scopes.NoWord t.value ∧ Scopes.NoWord (Utf8.encode s)

variable {spell : Token → Option String}

/-- The edit at a token is the one that writes its new spelling. -/
theorem Apart.find?_edits {base limit : Nat} {tokens : List Token} (h : Apart base limit tokens) :
    ∀ t ∈ tokens, (edits spell tokens).find? (fun e => e.range = t.range) =
      (spell t).map fun s => ⟨t.range, s⟩ := by
  induction tokens generalizing base with
  | nil => simp
  | cons u rest ih =>
    obtain ⟨hbase, hvalue, hrest⟩ := h
    have hlength := List.length_pos_iff.mpr hvalue.ne_nil
    have hafter : ∀ t ∈ rest, u.range ≠ t.range := by
      intro t ht hrange
      have hstart : u.start = t.start := congrArg ByteRange.start hrange
      have hbounds := (hrest.bounds t ht).1
      simp only [Token.stop] at hbounds
      omega
    intro t ht
    rcases List.mem_cons.mp ht with rfl | ht
    · cases hspell : spell t with
      | none =>
        rw [edits_cons_none hspell, List.find?_eq_none.mpr, Option.map_none]
        intro e he
        obtain ⟨u, hu, hedit⟩ := List.mem_filterMap.mp he
        obtain ⟨s, -, rfl⟩ := Option.map_eq_some_iff.mp hedit
        simpa using Ne.symm (hafter u hu)
      | some s =>
        rw [edits_cons_some hspell, List.find?_cons_of_pos (by simp)]
        rfl
    · cases hspell : spell u with
      | none => rw [edits_cons_none hspell, ih hrest t ht]
      | some s =>
        rw [edits_cons_some hspell, List.find?_cons_of_neg (by simpa using hafter t ht),
          ih hrest t ht]

theorem edited_edits {source : Bytes} {t : Token} (ht : t ∈ Token.scan source) :
    edited (edits spell (Token.scan source)) t =
      respell spell (shift (edits spell (Token.scan source))) t := by
  rw [edited, respell, (apart_scan source).find?_edits t ht]
  cases hspell : spell t with
  | none => rw [value_of_none hspell]; rfl
  | some s => rw [value_of_some hspell]; rfl

theorem Safe.carried (hspell : Safe spell) {source : Bytes} {t : Token}
    (ht : t ∈ Token.scan source) :
    Scopes.Carried spell (shift (edits spell (Token.scan source))) t := by
  refine ⟨((apart_scan source).shiftFrom_stop 0 t ht).symm, ?_⟩
  cases h : spell t with
  | none => exact .inl (value_of_none h)
  | some s =>
    have hword := hspell.noWord t s h
    obtain ⟨hkind, hspelled⟩ := hspell.keepsKinds t s h
    refine .inr ⟨Scopes.inert_of_spelled hkind ((apart_scan source).spelled t ht)
      fun hidentifier => (hword hidentifier).1, ?_⟩
    refine Scopes.inert_of_spelled hkind ?_ fun hidentifier => ?_
    · rw [respell, value_of_some h]
      exact hspelled
    · rw [respell, value_of_some h]
      exact (hword hidentifier).2

/-- Writing safe spellings leaves the structure of a source alone. -/
theorem Safe.keepsStructure (hspell : Safe spell) (source : Bytes) :
    KeepsStructure source (edits spell (Token.scan source)) := by
  have hscan := scan_splice hspell.keepsKinds source
  refine ⟨fun e he => ?_, ?_, fun o houtside => ?_, ?_⟩
  · obtain ⟨t, ht, hedit⟩ := List.mem_filterMap.mp he
    obtain ⟨s, -, rfl⟩ := Option.map_eq_some_iff.mp hedit
    exact ⟨t, ht, rfl⟩
  · rw [hscan]
    exact List.map_congr_left fun t ht => (edited_edits ht).symm
  · have hwithin : Within 0 (0 + source.length) (edits spell (Token.scan source)) :=
      (Nat.zero_add source.length).symm ▸ (apart_scan source).within
    exact getElem?_spliceFrom source hwithin (Nat.zero_le o) houtside
  · rw [hscan]
    exact Scopes.ofTokens_respell fun t ht => hspell.carried ht

end RenameServer.Respelling
