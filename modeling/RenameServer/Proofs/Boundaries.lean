import RenameServer.Proofs.Positions
import RenameServer.Proofs.Respelling

/-!
Tokens lie between characters. Where one lexeme ends and the next begins, the
source ends or there is an ASCII byte on one side, and so it is where a
variable begins and ends inside a literal. In the bytes of a text such a place
is never inside a character.
-/
namespace RenameServer.Lexeme

open Utf8 (Bytes encodeChars)

/-- The end of the source, or a place next to an ASCII byte. -/
def Separated (left right : Bytes) : Prop :=
  right = [] ∨ (∃ b, right.head? = some b ∧ b < 0x80) ∨ ∃ b, left.getLast? = some b ∧ b < 0x80

theorem not_isContinuation_of_lt {b : UInt8} (h : b < 0x80) : ¬ Utf8.IsContinuation b :=
  fun hb => absurd (UInt8.lt_of_le_of_lt hb.1 h) (UInt8.lt_irrefl _)

/-- A place between two parts of the bytes, where the second starts no later than a character. -/
theorem exists_split_of_head {text : List Char} {l r : Bytes} (h : encodeChars text = l ++ r)
    (hr : ∀ b, r.head? = some b → ¬ Utf8.IsContinuation b) :
    ∃ p x, text = p ++ x ∧ encodeChars p = l ∧ encodeChars x = r := by
  have hlength : l.length ≤ (encodeChars text).length := by
    rw [h, List.length_append]
    exact Nat.le_add_right ..
  have hbyte : ∀ b, (encodeChars text)[l.length]? = some b → ¬ Utf8.IsContinuation b := by
    intro b hb
    rw [h, List.getElem?_append_right (Nat.le_refl _), Nat.sub_self, ← List.head?_eq_getElem?] at hb
    exact hr b hb
  obtain ⟨p, x, rfl, hp⟩ := Utf8.exists_split_of_boundary text l.length hlength hbyte
  rw [Utf8.encodeChars_append] at h
  obtain ⟨hleft, hright⟩ := List.append_inj h hp
  exact ⟨p, x, rfl, hleft, hright⟩

theorem encodeChar_of_ascii {c : Char} {text : List Char} {b : UInt8} {r : Bytes}
    (h : encodeChars (c :: text) = b :: r) (hb : b < 0x80) : String.utf8EncodeChar c = [b] := by
  rw [Utf8.encodeChars_cons] at h
  by_cases hc : c.toNat < 0x80
  · rw [Utf8.encodeChar_ascii hc] at h ⊢
    rw [(List.cons.inj h).1]
  · obtain ⟨d, more, hbytes, hd, -⟩ := Utf8.encodeChar_of_not_ascii (c := c) (by omega)
    rw [hbytes] at h
    rw [(List.cons.inj h).1] at hd
    exact absurd (UInt8.lt_of_le_of_lt hd hb) (by decide)

theorem exists_split_of_separated {text : List Char} {l r : Bytes} (h : encodeChars text = l ++ r)
    (hsep : Separated l r) : ∃ p x, text = p ++ x ∧ encodeChars p = l ∧ encodeChars x = r := by
  rcases hsep with rfl | ⟨b, hb, hascii⟩ | ⟨b, hb, hascii⟩
  · exact ⟨text, [], (List.append_nil text).symm, by rw [h, List.append_nil], rfl⟩
  · refine exists_split_of_head h fun c hc => ?_
    obtain rfl := Option.some.inj (hb.symm.trans hc)
    exact not_isContinuation_of_lt hascii
  · obtain ⟨l, rfl⟩ := List.getLast?_eq_some_iff.mp hb
    rw [List.append_assoc] at h
    obtain ⟨p, x, rfl, hp, hx⟩ := exists_split_of_head h fun c hc => by
      obtain rfl := Option.some.inj hc
      exact not_isContinuation_of_lt hascii
    cases x with
    | nil => cases hx
    | cons c x =>
      have hc : String.utf8EncodeChar c = [b] := encodeChar_of_ascii hx hascii
      rw [Utf8.encodeChars_cons, hc] at hx
      exact ⟨p ++ [c], x, by simp, by simp [hp, hc], (List.cons.inj hx).2⟩

theorem lt_of_isNameByte_eq_false {b : UInt8} (h : isNameByte b = false) : b < 0x80 := by
  refine UInt8.not_le.mp fun hb => ?_
  simp [isNameByte, isNameStart, hb] at h

/-- A place before the end of a class of bytes that has all bytes above ASCII. -/
theorem separated_of_head {p : UInt8 → Bool} (hp : ∀ b, p b = false → b < 0x80) (l : Bytes)
    {r : Bytes} (h : r.head?.any p = false) : Separated l r := by
  cases r with
  | nil => exact .inl rfl
  | cons b r => exact .inr (.inl ⟨b, rfl, hp b (by simpa using h)⟩)

theorem lt_of_line_end {b : UInt8}
    (h : decide (b ≠ carriageReturn ∧ b ≠ lineFeed) = false) : b < 0x80 := by
  have hend : b = carriageReturn ∨ b = lineFeed := by
    by_cases hb : b = carriageReturn
    · exact .inl hb
    · exact .inr (by simpa [hb] using h)
  rcases hend with rfl | rfl <;> decide

theorem separated_of_getLast {l r : Bytes} {b : UInt8} (h : l.getLast? = some b)
    (hb : b < 0x80) : Separated l r :=
  .inr (.inr ⟨b, h, hb⟩)

theorem getLast?_cons_of_some {s : Bytes} {b : UInt8} (h : s.getLast? = some b) (c : UInt8) :
    (c :: s).getLast? = some b := by
  rw [List.getLast?_cons, h]
  rfl

theorem Body.getLast? {quote : UInt8} {last s : Bytes} (h : Body quote last s) {b : UInt8}
    (hlast : last.getLast? = some b) : s.getLast? = some b := by
  induction h with
  | last => exact hlast
  | escaped c h ih => exact getLast?_cons_of_some (getLast?_cons_of_some ih c) backslash
  | plain hb hescape h ih => exact getLast?_cons_of_some ih _

/-- A literal runs to the end of the source or ends with its quote. -/
theorem separated_literal {quote : UInt8} (hquote : quote ≠ backslash) (hascii : quote < 0x80)
    {rest : Bytes} {n : Nat} (h : literalLength? quote rest = some n) :
    Separated (quote :: rest.take n) (rest.drop n) := by
  rcases literalLength?_eq_some hquote h with hbody | ⟨rfl, -⟩
  · exact separated_of_getLast (getLast?_cons_of_some (hbody.getLast? rfl) quote) hascii
  · exact .inl List.drop_length

/-- A block comment that does not run to the end of the source ends with a slash. -/
theorem blockLength_cases (s : Bytes) :
    s.drop (blockLength s) = [] ∨ (s.take (blockLength s)).getLast? = some slash := by
  induction s with
  | nil => exact .inl rfl
  | cons b s ih =>
    by_cases hclose : b = star ∧ s.head? = some slash
    · obtain ⟨rfl, hhead⟩ := hclose
      obtain ⟨more, rfl⟩ := List.head?_eq_some_iff.mp hhead
      exact .inr rfl
    · rw [blockLength, if_neg hclose, List.drop_succ_cons, List.take_succ_cons]
      exact ih.imp id fun hlast => getLast?_cons_of_some hlast b

/-- Lexemes are separated. -/
theorem Starts.separated {b : UInt8} {rest : Bytes} {kind : Kind} {n : Nat}
    (h : Starts b rest kind n) : Separated (b :: rest.take n) (rest.drop n) := by
  cases h with
  | line rest =>
    exact separated_of_head (fun b => lt_of_line_end) _ (head?_drop_takeWhile _ rest)
  | block rest =>
    rcases blockLength_cases rest with hend | hlast
    · exact .inl hend
    · exact separated_of_getLast
        (getLast?_cons_of_some (getLast?_cons_of_some hlast star) slash) (by decide)
  | hash => exact separated_of_head (fun b => lt_of_line_end) _ (head?_drop_takeWhile _ rest)
  | single h => exact separated_literal (by decide) (by decide) h
  | double h => exact separated_literal (by decide) (by decide) h
  | «variable» h =>
    exact separated_of_head (fun b => lt_of_isNameByte_eq_false) _ (head?_drop_takeWhile _ rest)
  | identifier rest h =>
    exact separated_of_head (fun b => lt_of_isNameByte_eq_false) _ (head?_drop_takeWhile _ rest)
  | static rest => exact separated_of_getLast (b := colon) rfl (by decide)
  | arrow rest => exact separated_of_getLast (b := greater) rfl (by decide)
  | mark rest h =>
    have hascii : b < 0x80 := by rcases h with rfl | rfl | rfl <;> decide
    exact separated_of_getLast (b := b) rfl hascii
  | other h =>
    refine separated_of_getLast (b := b) rfl (UInt8.not_le.mp fun hb => ?_)
    have hname := h.not_name
    simp [isNameStart, hb] at hname

/-- A lexeme of a text, and the text after it. -/
theorem Starts.exists_split {b : UInt8} {rest : Bytes} {kind : Kind} {n : Nat}
    (h : Starts b rest kind n) {text : List Char} (htext : encodeChars text = b :: rest) :
    ∃ p x, text = p ++ x ∧ encodeChars p = b :: rest.take n ∧ encodeChars x = rest.drop n :=
  exists_split_of_separated (by rw [htext, List.cons_append, List.take_append_drop]) h.separated

end RenameServer.Lexeme

namespace RenameServer.Token

open Utf8 (Bytes encodeChars)
open Lexeme Position

/-- A variable in a literal, with what stands before and after it. -/
theorem exists_of_mem_interpolated {t : Token} {base : Nat} {previous : UInt8} {bytes : Bytes}
    (h : t ∈ interpolated base previous bytes) :
    ∃ l r, bytes = l ++ (t.value ++ r) ∧ base + l.length = t.start ∧
      t.value.head? = some dollar ∧ r.head?.any isNameByte = false := by
  induction bytes generalizing base previous with
  | nil => cases h
  | cons b rest ih =>
    have hlater : t ∈ interpolated (base + 1) b rest →
        ∃ l r, b :: rest = l ++ (t.value ++ r) ∧ base + l.length = t.start ∧
          t.value.head? = some dollar ∧ r.head?.any isNameByte = false := by
      intro hmem
      obtain ⟨l, r, rfl, hstart, hvalue, hr⟩ := ih hmem
      refine ⟨b :: l, r, rfl, ?_, hvalue, hr⟩
      rw [List.length_cons]
      omega
    by_cases hvariable : b = dollar ∧ previous ≠ backslash ∧ rest.head?.any isNameStart = true
    · rw [interpolated, if_pos hvariable] at h
      rcases List.mem_cons.mp h with rfl | hmem
      · refine ⟨[], rest.drop (rest.takeWhile isNameByte).length, ?_, rfl,
          by rw [hvariable.1]; rfl, head?_drop_takeWhile isNameByte rest⟩
        simp only [List.nil_append, List.cons_append]
        rw [← take_length_takeWhile, List.length_take_of_le, List.take_append_drop]
        exact (List.takeWhile_prefix isNameByte).length_le
      · exact hlater hmem
    · rw [interpolated, if_neg hvariable] at h
      exact hlater h

/-- The characters of a token in a text that starts at `base`. -/
def InText (base : Nat) (text : List Char) (t : Token) : Prop :=
  ∃ p v x, text = p ++ (v ++ x) ∧ base + byteLength p = t.start ∧ encodeChars v = t.value

theorem InText.whole (base : Nat) (text : List Char) (kind : Kind) :
    InText base text ⟨kind, base, encodeChars text⟩ :=
  ⟨[], text, [], by simp, rfl, rfl⟩

theorem InText.append_left {base : Nat} {p text : List Char} {t : Token}
    (h : InText (base + byteLength p) text t) : InText base (p ++ text) t := by
  obtain ⟨q, v, x, rfl, hstart, hvalue⟩ := h
  refine ⟨p ++ q, v, x, by rw [List.append_assoc], ?_, hvalue⟩
  rw [byteLength_append, ← Nat.add_assoc, hstart]

theorem InText.append_right {base : Nat} {text : List Char} {t : Token} (h : InText base text t)
    (more : List Char) : InText base (text ++ more) t := by
  obtain ⟨p, v, x, rfl, hstart, hvalue⟩ := h
  exact ⟨p, v, x ++ more, by simp only [List.append_assoc], hstart, hvalue⟩

theorem inText_of_mem_interpolated {t : Token} {base : Nat} {previous : UInt8} {text : List Char}
    (h : t ∈ interpolated base previous (encodeChars text)) : InText base text t := by
  obtain ⟨l, r, hbytes, hstart, hvalue, hr⟩ := exists_of_mem_interpolated h
  have hbefore : Separated l (t.value ++ r) := by
    refine .inr (.inl ⟨dollar, ?_, by decide⟩)
    rw [List.head?_append, hvalue]
    rfl
  obtain ⟨p, y, rfl, hp, hy⟩ := exists_split_of_separated hbytes hbefore
  obtain ⟨v, x, rfl, hv, -⟩ := exists_split_of_separated hy
    (separated_of_head (fun b => lt_of_isNameByte_eq_false) t.value hr)
  exact ⟨p, v, x, rfl, by rw [byteLength_eq, hp, hstart], hv⟩

theorem inText_of_mem_ofLexeme {t : Token} {base : Nat} {kind : Lexeme.Kind} {text : List Char}
    (h : t ∈ ofLexeme base ⟨kind, encodeChars text⟩) : InText base text t := by
  cases kind with
  | comment => cases h
  | single => cases h
  | other => cases h
  | double => exact inText_of_mem_interpolated h
  | «variable» =>
    obtain rfl := List.mem_singleton.mp h
    exact .whole base text .variable
  | identifier =>
    obtain rfl := List.mem_singleton.mp h
    exact .whole base text .identifier
  | punct =>
    obtain rfl := List.mem_singleton.mp h
    exact .whole base text .punct

/-- Every token of a text is made of characters of it. -/
theorem inText_of_mem_ofLexemes {t : Token} (bytes : Bytes) :
    ∀ {base : Nat} {text : List Char}, encodeChars text = bytes →
      t ∈ ofLexemes base (cut bytes) → InText base text t := by
  fun_induction cut bytes with
  | case1 =>
    intro base text htext h
    cases h
  | case2 b rest e =>
    rename_i ih
    intro base text htext h
    obtain ⟨p, x, rfl, hp, hx⟩ := (starts_extent b rest).exists_split htext
    rcases List.mem_append.mp h with h | h
    · rw [← hp] at h
      exact (inText_of_mem_ofLexeme h).append_right x
    · rw [← hp, ← byteLength_eq] at h
      exact (ih hx h).append_left

theorem inText_of_mem_scan {t : Token} {text : List Char} (h : t ∈ scan (encodeChars text)) :
    InText 0 text t :=
  inText_of_mem_ofLexemes _ rfl h

end RenameServer.Token
