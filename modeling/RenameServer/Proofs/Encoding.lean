import Mathlib.Tactic.SplitIfs
import RenameServer.Text.Utf8

/-!
Encoded text decodes to itself, strictly and lossily. The bytes of a character
are either one ASCII byte or a lead byte followed by continuation bytes, so an
offset whose byte is no continuation byte lies between two characters.
-/
namespace RenameServer

theorem exists_of_bind_ok {ε α β : Type} {x : Except ε α} {f : α → Except ε β} {b : β}
    (h : (x >>= f) = .ok b) : ∃ a, x = .ok a ∧ f a = .ok b := by
  cases x with
  | error e => cases h
  | ok a => exact ⟨a, rfl, h⟩

theorem exists_of_map_ok {ε α β : Type} {x : Except ε α} {f : α → β} {b : β}
    (h : x.map f = .ok b) : ∃ a, x = .ok a ∧ f a = b := by
  cases x with
  | error e => cases h
  | ok a => exact ⟨a, rfl, Except.ok.inj h⟩

namespace Utf8

/-- The bytes of a list of characters. -/
def encodeChars (cs : List Char) : Bytes := cs.flatMap String.utf8EncodeChar

theorem encode_eq_encodeChars (text : String) : encode text = encodeChars text.toList := rfl

theorem encode_ofList (cs : List Char) : encode (String.ofList cs) = encodeChars cs := by
  rw [encode_eq_encodeChars, String.toList_ofList]

@[simp] theorem encodeChars_nil : encodeChars [] = [] := rfl

@[simp] theorem encodeChars_cons (c : Char) (cs : List Char) :
    encodeChars (c :: cs) = String.utf8EncodeChar c ++ encodeChars cs := rfl

@[simp] theorem encodeChars_append (p x : List Char) :
    encodeChars (p ++ x) = encodeChars p ++ encodeChars x := List.flatMap_append

theorem toNat_ofNat_of_lt {n : Nat} (h : n < 256) : (UInt8.ofNat n).toNat = n := by
  simp only [UInt8.toNat_ofNat']
  omega

theorem lead?_ofNat {n : Nat} (h : n < 256) :
    lead? (UInt8.ofNat n) =
      if n < 0x80 then some ⟨0, 0x80, 0xbf, n⟩
      else if n < 0xc2 then none
      else if n < 0xe0 then some ⟨1, 0x80, 0xbf, n - 0xc0⟩
      else if n = 0xe0 then some ⟨2, 0xa0, 0xbf, 0⟩
      else if n = 0xed then some ⟨2, 0x80, 0x9f, 0xd⟩
      else if n < 0xf0 then some ⟨2, 0x80, 0xbf, n - 0xe0⟩
      else if n = 0xf0 then some ⟨3, 0x90, 0xbf, 0⟩
      else if n < 0xf4 then some ⟨3, 0x80, 0xbf, n - 0xf0⟩
      else if n = 0xf4 then some ⟨3, 0x80, 0x8f, 4⟩
      else none := by
  have hn := toNat_ofNat_of_lt h
  simp only [lead?, UInt8.lt_iff_toNat_lt, ← UInt8.toNat_inj, hn]
  rfl

/-- A continuation byte within its bounds adds six bits. -/
theorem tail_ofNat {n need : Nat} (h : n < 256) (low high : UInt8) (bits taken : Nat)
    (rest : Bytes) (hlow : low.toNat ≤ n) (hhigh : n ≤ high.toNat) :
    tail (need + 1) low high bits taken (UInt8.ofNat n :: rest) =
      tail need 0x80 0xbf (bits * 64 + (n - 0x80)) (taken + 1) rest := by
  rw [tail]
  simp only [UInt8.le_iff_toNat_le, toNat_ofNat_of_lt h]
  rw [if_pos ⟨hlow, hhigh⟩]

/-- The last bytes of a character have no other bounds than those of continuation bytes. -/
theorem tail_continuation {n need : Nat} (h : n < 0x40) (bits taken : Nat) (rest : Bytes) :
    tail (need + 1) 0x80 0xbf bits taken (UInt8.ofNat (n + 0x80) :: rest) =
      tail need 0x80 0xbf (bits * 64 + n) (taken + 1) rest := by
  have hlow : (0x80 : UInt8).toNat = 128 := rfl
  have hhigh : (0xbf : UInt8).toNat = 191 := rfl
  rw [tail_ofNat (by omega) _ _ _ _ _ (by omega) (by omega), Nat.add_sub_cancel]

theorem lead_two {v : Nat} (h : 0x7f < v) (h' : v ≤ 0x7ff) :
    lead? (UInt8.ofNat (v / 64 % 0x20 + 0xc0)) = some ⟨1, 0x80, 0xbf, v / 64⟩ := by
  rw [lead?_ofNat (by omega)]
  grind

/-- The lead byte of three bounds the next byte so that overlong forms and
surrogates are refused; characters are neither. -/
theorem lead_three {v : Nat} (h : 0x7ff < v) (h' : v ≤ 0xffff) (hs : v < 0xd800 ∨ 0xdfff < v) :
    ∃ low high : UInt8,
      lead? (UInt8.ofNat (v / 4096 % 0x10 + 0xe0)) = some ⟨2, low, high, v / 4096⟩ ∧
      low.toNat ≤ v / 64 % 0x40 + 0x80 ∧ v / 64 % 0x40 + 0x80 ≤ high.toNat := by
  have hbounds : (0x80 : UInt8).toNat = 128 ∧ (0xa0 : UInt8).toNat = 160 ∧
      (0x9f : UInt8).toNat = 159 ∧ (0xbf : UInt8).toNat = 191 := by decide
  rw [lead?_ofNat (by omega)]
  by_cases hzero : v / 4096 = 0
  · exact ⟨0xa0, 0xbf, by grind, by omega, by omega⟩
  · by_cases hsurrogate : v / 4096 = 13
    · exact ⟨0x80, 0x9f, by grind, by omega, by omega⟩
    · exact ⟨0x80, 0xbf, by grind, by omega, by omega⟩

theorem lead_four {v : Nat} (h : 0xffff < v) (h' : v < 0x110000) :
    ∃ low high : UInt8,
      lead? (UInt8.ofNat (v / 262144 % 0x08 + 0xf0)) = some ⟨3, low, high, v / 262144⟩ ∧
      low.toNat ≤ v / 4096 % 0x40 + 0x80 ∧ v / 4096 % 0x40 + 0x80 ≤ high.toNat := by
  have hbounds : (0x80 : UInt8).toNat = 128 ∧ (0x90 : UInt8).toNat = 144 ∧
      (0x8f : UInt8).toNat = 143 ∧ (0xbf : UInt8).toNat = 191 := by decide
  rw [lead?_ofNat (by omega)]
  by_cases hzero : v / 262144 = 0
  · exact ⟨0x90, 0xbf, by grind, by omega, by omega⟩
  · by_cases hlast : v / 262144 = 4
    · exact ⟨0x80, 0x8f, by grind, by omega, by omega⟩
    · exact ⟨0x80, 0xbf, by grind, by omega, by omega⟩

/-- The bytes of a character are read as that character, whatever follows. -/
theorem unit_encodeChar (c : Char) :
    ∃ b more, String.utf8EncodeChar c = b :: more ∧
      ∀ rest, unit b (more ++ rest) = ⟨more.length, .ok c⟩ := by
  have hc : c.toNat < 0xd800 ∨ (0xdfff < c.toNat ∧ c.toNat < 0x110000) := c.valid
  have hval : c.val.toNat = c.toNat := rfl
  have hof : Char.ofNat c.toNat = c := Char.ofNat_toNat c
  generalize c.toNat = v at *
  simp only [String.utf8EncodeChar, hval]
  split_ifs with hone htwo hthree
  · refine ⟨_, _, rfl, fun rest => ?_⟩
    simp [unit, lead?_ofNat (show v < 256 by omega), tail, show v < 128 by omega, hof]
  · refine ⟨_, _, rfl, fun rest => ?_⟩
    simp only [unit, lead_two (by omega) htwo, List.cons_append, List.nil_append]
    rw [tail_continuation (by omega), tail, show v / 64 * 64 + v % 64 = v by omega, hof]
    rfl
  · refine ⟨_, _, rfl, fun rest => ?_⟩
    obtain ⟨low, high, hlead, hlow, hhigh⟩ := lead_three (v := v) (by omega) hthree (by omega)
    simp only [unit, hlead, List.cons_append, List.nil_append]
    rw [tail_ofNat (by omega) _ _ _ _ _ hlow hhigh, tail_continuation (by omega), tail,
      show (v / 4096 * 64 + (v / 64 % 64 + 128 - 128)) * 64 + v % 64 = v by omega, hof]
    rfl
  · refine ⟨_, _, rfl, fun rest => ?_⟩
    obtain ⟨low, high, hlead, hlow, hhigh⟩ := lead_four (v := v) (by omega) (by omega)
    simp only [unit, hlead, List.cons_append, List.nil_append]
    rw [tail_ofNat (by omega) _ _ _ _ _ hlow hhigh, tail_continuation (by omega),
      tail_continuation (by omega), tail,
      show ((v / 262144 * 64 + (v / 4096 % 64 + 128 - 128)) * 64 + v / 64 % 64) * 64 + v % 64 = v
        by omega, hof]
    rfl

/-- Lossy decoding loses nothing of encoded text. -/
theorem decodeLossy_encodeChars (cs : List Char) : decodeLossy (encodeChars cs) = cs := by
  induction cs with
  | nil => rw [encodeChars_nil, decodeLossy]
  | cons c cs ih =>
    obtain ⟨b, more, hbytes, hunit⟩ := unit_encodeChar c
    rw [encodeChars_cons, hbytes, List.cons_append, decodeLossy]
    simp only [hunit, List.drop_left, ih]

theorem decodeFrom_encodeChars (cs : List Char) (position : Nat) :
    decodeFrom position (encodeChars cs) = .ok cs := by
  induction cs generalizing position with
  | nil => rw [encodeChars_nil, decodeFrom]
  | cons c cs ih =>
    obtain ⟨b, more, hbytes, hunit⟩ := unit_encodeChar c
    rw [encodeChars_cons, hbytes, List.cons_append, decodeFrom]
    simp only [hunit, List.drop_left, ih]
    rfl

/-- Encoded text is accepted and read back. -/
theorem decode_encode (text : String) : decode (encode text) = .ok text := by
  rw [decode, encode_eq_encodeChars, decodeFrom_encodeChars]
  simp [Except.map]

theorem decode_encodeChars (cs : List Char) :
    decode (encodeChars cs) = .ok (String.ofList cs) := by
  rw [← encode_ofList, decode_encode]

/-- A byte that is never the first of a character. -/
def IsContinuation (b : UInt8) : Prop := 0x80 ≤ b ∧ b < 0xc0

theorem encodeChar_ascii {c : Char} (h : c.toNat < 0x80) :
    String.utf8EncodeChar c = [UInt8.ofNat c.toNat] := by
  have hval : c.val.toNat = c.toNat := rfl
  simp only [String.utf8EncodeChar, hval]
  rw [if_pos (by omega)]

theorem isContinuation_ofNat {n : Nat} (h : n < 0x40) :
    IsContinuation (UInt8.ofNat (n + 0x80)) := by
  simp only [IsContinuation, UInt8.le_iff_toNat_le, UInt8.lt_iff_toNat_lt,
    toNat_ofNat_of_lt (show n + 0x80 < 256 by omega), UInt8.reduceToNat]
  omega

theorem lead_le_ofNat {n : Nat} (h : 0xc0 ≤ n) (h' : n < 256) : 0xc0 ≤ UInt8.ofNat n := by
  simp only [UInt8.le_iff_toNat_le, toNat_ofNat_of_lt h', UInt8.reduceToNat]
  exact h

/-- Outside ASCII a lead byte is followed by continuation bytes only. -/
theorem encodeChar_of_not_ascii {c : Char} (h : 0x80 ≤ c.toNat) :
    ∃ b more, String.utf8EncodeChar c = b :: more ∧ 0xc0 ≤ b ∧ ∀ x ∈ more, IsContinuation x := by
  have hval : c.val.toNat = c.toNat := rfl
  simp only [String.utf8EncodeChar, hval]
  split_ifs with hone htwo hthree
  · omega
  · refine ⟨_, _, rfl, lead_le_ofNat (by omega) (by omega), ?_⟩
    simp only [List.mem_cons, List.not_mem_nil, or_false, forall_eq]
    exact isContinuation_ofNat (by omega)
  · refine ⟨_, _, rfl, lead_le_ofNat (by omega) (by omega), ?_⟩
    simp only [List.mem_cons, List.not_mem_nil, or_false, forall_eq_or_imp, forall_eq]
    exact ⟨isContinuation_ofNat (by omega), isContinuation_ofNat (by omega)⟩
  · refine ⟨_, _, rfl, lead_le_ofNat (by omega) (by omega), ?_⟩
    simp only [List.mem_cons, List.not_mem_nil, or_false, forall_eq_or_imp, forall_eq]
    exact ⟨isContinuation_ofNat (by omega), isContinuation_ofNat (by omega),
      isContinuation_ofNat (by omega)⟩

/-- After its first byte a character has continuation bytes only. -/
theorem encodeChar_tail (c : Char) :
    ∃ b more, String.utf8EncodeChar c = b :: more ∧ ∀ x ∈ more, IsContinuation x := by
  by_cases h : c.toNat < 0x80
  · exact ⟨_, [], encodeChar_ascii h, by simp⟩
  · obtain ⟨b, more, hbytes, _, hmore⟩ := encodeChar_of_not_ascii (c := c) (by omega)
    exact ⟨b, more, hbytes, hmore⟩

/-- An offset at the end, or at a byte that is no continuation byte, lies
between two characters. -/
theorem exists_split_of_boundary (cs : List Char) (o : Nat) (ho : o ≤ (encodeChars cs).length)
    (hb : ∀ b, (encodeChars cs)[o]? = some b → ¬ IsContinuation b) :
    ∃ p x, cs = p ++ x ∧ (encodeChars p).length = o := by
  induction cs generalizing o with
  | nil => exact ⟨[], [], rfl, (Nat.le_zero.mp ho).symm⟩
  | cons c cs ih =>
    rcases Nat.eq_zero_or_pos o with rfl | hpos
    · exact ⟨[], c :: cs, rfl, rfl⟩
    · obtain ⟨b, more, hbytes, hmore⟩ := encodeChar_tail c
      rw [encodeChars_cons, List.length_append] at ho
      rw [encodeChars_cons] at hb
      have hlen : (String.utf8EncodeChar c).length = more.length + 1 := by rw [hbytes]; rfl
      by_cases hin : o < (String.utf8EncodeChar c).length
      · exfalso
        rw [List.getElem?_append_left hin, hbytes] at hb
        obtain ⟨k, rfl⟩ : ∃ k, o = k + 1 := ⟨o - 1, by omega⟩
        rw [List.getElem?_cons_succ, List.getElem?_eq_getElem (by omega)] at hb
        exact hb _ rfl (hmore _ (List.getElem_mem _))
      · rw [List.getElem?_append_right (by omega)] at hb
        obtain ⟨p, x, rfl, hp⟩ := ih (o - (String.utf8EncodeChar c).length) (by omega) hb
        refine ⟨c :: p, x, rfl, ?_⟩
        rw [encodeChars_cons, List.length_append, hp]
        omega

/-- An ASCII character is known by its byte. -/
theorem mem_encodeChar_ascii {c d : Char} (hd : d.toNat < 0x80)
    (h : UInt8.ofNat d.toNat ∈ String.utf8EncodeChar c) : c = d := by
  have hbyte : (UInt8.ofNat d.toNat).toNat = d.toNat := toNat_ofNat_of_lt (by omega)
  by_cases hc : c.toNat < 0x80
  · rw [encodeChar_ascii hc, List.mem_singleton] at h
    have hsame := congrArg UInt8.toNat h
    rw [hbyte, toNat_ofNat_of_lt (by omega)] at hsame
    exact Char.toNat_inj.mp hsame.symm
  · obtain ⟨b, more, hbytes, hb, hmore⟩ := encodeChar_of_not_ascii (c := c) (by omega)
    rw [hbytes] at h
    exfalso
    rcases List.mem_cons.mp h with heq | hmem
    · rw [← heq, UInt8.le_iff_toNat_le, hbyte] at hb
      exact absurd (Nat.lt_of_le_of_lt hb hd) (by decide)
    · have hle := (hmore _ hmem).1
      rw [UInt8.le_iff_toNat_le, hbyte] at hle
      exact absurd (Nat.lt_of_le_of_lt hle hd) (by decide)

end Utf8

end RenameServer
