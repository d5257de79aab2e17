import Mathlib.Data.List.TakeWhile
import RenameServer.Proofs.Encoding
import RenameServer.Proofs.Pieces

/-!
What is written can be read. The header that states the length of a body is read
back as that length, so a body that is wrapped up is carried. The number of bytes
may not have more digits than an integer may be written with.
-/
namespace RenameServer

open Utf8 (Bytes encode encodeChars)

namespace Integer

theorem toNat_of_isDigit {c : Char} (h : c.isDigit) : 48 ≤ c.toNat ∧ c.toNat ≤ 57 := by
  simpa [Char.isDigit, Char.le_def, UInt32.le_iff_toNat_le] using h

theorem digit?_of_isDigit {c : Char} (h : c.isDigit) : Text.digit? c = some (c.toNat - 48) := by
  have hc := toNat_of_isDigit h
  rw [Text.digit?, Text.digitZeros, List.find?_cons_of_pos (by simp; omega)]
  rfl

theorem ne_of_isDigit {c d : Char} (h : c.isDigit) (hd : ¬ d.isDigit) : c ≠ d :=
  fun heq => hd (heq ▸ h)

theorem digits_cons {c : Char} (h : c.isDigit) (value : Nat) (again : Bool) (rest : List Char) :
    digits value again (c :: rest) = digits (10 * value + (c.toNat - 48)) false rest := by
  rw [digits, digit?_of_isDigit h, Nat.mul_comm]
  · rfl
  · exact ne_of_isDigit h (by decide)

theorem digits_of_isDigit {cs : List Char} (h : ∀ c ∈ cs, c.isDigit) (value : Nat) :
    digits value false cs = some (Nat.ofDigitChars 10 cs value) := by
  induction cs generalizing value with
  | nil => rfl
  | cons c rest ih =>
    obtain ⟨hc, hrest⟩ := List.forall_mem_cons.mp h
    rw [digits_cons hc, ih hrest, Nat.ofDigitChars_cons]
    rfl

theorem isDigit_of_mem {n : Nat} {c : Char} (h : c ∈ Nat.toDigits 10 n) : c.isDigit :=
  Nat.isDigit_of_mem_toDigits (by decide) (by decide) h

/-- The digits of a number are read as that number, unless there are too many. -/
theorem ofText_toDigits_eq (n : Nat) :
    ofText (String.ofList (Nat.toDigits 10 n)) =
      if digitLimit < (Nat.toDigits 10 n).length then .error (.tooLong (Nat.toDigits 10 n).length)
      else .ok n := by
  have hdigit : ∀ c ∈ Nat.toDigits 10 n, c.isDigit := fun c hc => isDigit_of_mem hc
  have hvalue := @Nat.ofDigitChars_ten_toDigits n
  obtain ⟨c, rest, hcons⟩ := List.exists_cons_of_ne_nil (Nat.toDigits_ne_nil (n := n) (b := 10))
  rw [hcons] at hdigit hvalue ⊢
  obtain ⟨hc, hrest⟩ := List.forall_mem_cons.mp hdigit
  have hspelled : ∀ d ∈ c :: rest, isDigitOrUnderscore d = true := by
    intro d hd
    simp [isDigitOrUnderscore, digit?_of_isDigit (hdigit d hd)]
  have hcount : (c :: rest).countP (· ≠ '_') = (c :: rest).length :=
    List.countP_eq_length.mpr fun d hd => by simpa using ne_of_isDigit (hdigit d hd) (by decide)
  have hdigits : digits 0 true (c :: rest) = some n := by
    rw [digits_cons hc, digits_of_isDigit hrest]
    rw [Nat.ofDigitChars_cons] at hvalue
    exact congrArg some hvalue
  have hunsigned : unsigned (c :: rest) =
      if digitLimit < (c :: rest).length then .error (.tooLong (c :: rest).length) else .ok n := by
    simp only [unsigned]
    rw [List.takeWhile_eq_self_iff.mpr hspelled, List.dropWhile_eq_nil_iff.mpr hspelled, hdigits,
      hcount]
    rfl
  have hblank : Text.isBlank c = false := by
    have := toNat_of_isDigit hc
    simp [Text.isBlank]
    omega
  rw [ofText, String.toList_ofList, List.dropWhile_cons_of_neg (by simp [hblank])]
  rw [signed, hunsigned]
  · split <;> rfl
  · exact fun _ heq => ne_of_isDigit hc (by decide) (List.cons.inj heq).1
  · exact fun _ heq => ne_of_isDigit hc (by decide) (List.cons.inj heq).1

theorem ofText_toDigits {n : Nat} (hn : (Nat.toDigits 10 n).length ≤ digitLimit) :
    ofText (String.ofList (Nat.toDigits 10 n)) = .ok n := by
  rw [ofText_toDigits_eq, if_neg (Nat.not_lt.mpr hn)]

end Integer

namespace Text

theorem dropWhile_blank {blank : Char → Bool} {before cs : List Char}
    (hbefore : ∀ c ∈ before, blank c) (hfirst : ∀ c ∈ cs.head?, ¬ blank c) :
    (before ++ cs).dropWhile blank = cs := by
  rw [List.dropWhile_append_of_pos hbefore]
  cases cs with
  | nil => rfl
  | cons c rest => exact List.dropWhile_cons_of_neg (hfirst c rfl)

/-- Only what is blank at the ends goes. -/
theorem strip_append {blank : Char → Bool} {before cs after : List Char} (hne : cs ≠ [])
    (hbefore : ∀ c ∈ before, blank c) (hafter : ∀ c ∈ after, blank c)
    (hfirst : ∀ c ∈ cs.head?, ¬ blank c) (hlast : ∀ c ∈ cs.getLast?, ¬ blank c) :
    strip blank (before ++ (cs ++ after)) = cs := by
  have hstart : (before ++ (cs ++ after)).dropWhile blank = cs ++ after := by
    obtain ⟨c, rest, rfl⟩ := List.exists_cons_of_ne_nil hne
    exact dropWhile_blank hbefore hfirst
  have hstop : (after.reverse ++ cs.reverse).dropWhile blank = cs.reverse := by
    refine dropWhile_blank (fun c hc => hafter c (List.mem_reverse.mp hc)) ?_
    rwa [List.head?_reverse]
  rw [strip, hstart, List.reverse_append, hstop, List.reverse_reverse]

end Text

namespace Frame

/-- An ASCII character as a byte. -/
def byte (c : Char) : UInt8 := UInt8.ofNat c.toNat

theorem toNat_byte {c : Char} (h : c.toNat < 0x80) : (byte c).toNat = c.toNat :=
  Utf8.toNat_ofNat_of_lt (by omega)

theorem encodeChars_ascii {cs : List Char} (h : ∀ c ∈ cs, c.toNat < 0x80) :
    encodeChars cs = cs.map byte := by
  induction cs with
  | nil => rfl
  | cons c rest ih =>
    obtain ⟨hc, hrest⟩ := List.forall_mem_cons.mp h
    rw [Utf8.encodeChars_cons, Utf8.encodeChar_ascii hc, ih hrest]
    rfl

theorem asciiText_map_byte {cs : List Char} (h : ∀ c ∈ cs, c.toNat < 0x80) :
    asciiText (cs.map byte) = .ok cs := by
  have hascii : (cs.map byte).findIdx? (fun b => 0x80 ≤ b) = none := by
    rw [List.findIdx?_eq_none_iff]
    intro b hb
    obtain ⟨c, hc, rfl⟩ := List.mem_map.mp hb
    have := toNat_byte (h c hc)
    have := h c hc
    simp only [decide_eq_false_iff_not, UInt8.not_le, UInt8.lt_iff_toNat_lt]
    change _ < 128
    omega
  have hchars : (cs.map byte).map (fun b => Char.ofNat b.toNat) = cs := by
    rw [List.map_map]
    refine (List.map_congr_left fun c hc => ?_).trans (List.map_id cs)
    simp only [Function.comp_apply, toNat_byte (h c hc), Char.ofNat_toNat, id_eq]
  rw [asciiText, hascii, hchars]

/-- The bytes of an ASCII line that is ended by a line feed. -/
theorem line_of_ascii {cs : List Char} (h : ∀ c ∈ cs, c.toNat < 0x80) (hfeed : '\n' ∉ cs)
    (rest : Bytes) :
    (cs.map byte ++ lineFeed :: rest).takeWhile (· ≠ lineFeed) = cs.map byte ∧
      (cs.map byte ++ lineFeed :: rest).dropWhile (· ≠ lineFeed) = lineFeed :: rest := by
  have hline : ∀ b ∈ cs.map byte, decide (b ≠ lineFeed) = true := by
    intro b hb
    obtain ⟨c, hc, rfl⟩ := List.mem_map.mp hb
    refine decide_eq_true fun heq => hfeed ?_
    have hnat : c.toNat = ('\n').toNat :=
      (toNat_byte (h c hc)).symm.trans (congrArg UInt8.toNat heq)
    rwa [← Char.toNat_inj.mp hnat]
  constructor
  · rw [List.takeWhile_append_of_pos hline, List.takeWhile_cons_of_neg (by simp), List.append_nil]
  · rw [List.dropWhile_append_of_pos hline, List.dropWhile_cons_of_neg (by simp)]

/-- The header that states a length. -/
def lengthLine (n : Nat) : List Char := "Content-Length: ".toList ++ Nat.toDigits 10 n

theorem not_blank_of_isDigit {c : Char} (h : c.isDigit) : ¬ Text.isHeaderBlank c := by
  have := Integer.toNat_of_isDigit h
  simp [Text.isHeaderBlank]
  omega

theorem lengthAfter_lengthLine (known : Option String) (n : Nat) :
    lengthAfter known (lengthLine n) = some (String.ofList (Nat.toDigits 10 n)) := by
  have hvalue : Text.strip Text.isHeaderBlank (' ' :: Nat.toDigits 10 n) = Nat.toDigits 10 n := by
    have hstrip := @Text.strip_append Text.isHeaderBlank [' '] (Nat.toDigits 10 n) []
      Nat.toDigits_ne_nil (List.forall_mem_singleton.mpr (by decide)) (List.forall_mem_nil _)
      (fun c hc => not_blank_of_isDigit (Integer.isDigit_of_mem (List.mem_of_head? hc)))
      (fun c hc => not_blank_of_isDigit (Integer.isDigit_of_mem (List.mem_of_getLast? hc)))
    rwa [List.append_nil] at hstrip
  have hkey : (Text.strip Text.isHeaderBlank "Content-Length".toList).map Text.lowerAscii =
      "content-length".toList := by decide
  have hrest : (lengthLine n).dropWhile (· ≠ ':') = ':' :: ' ' :: Nat.toDigits 10 n := rfl
  have hfirst : (lengthLine n).takeWhile (· ≠ ':') = "Content-Length".toList := rfl
  simp only [lengthAfter, header?, hrest, hfirst, hvalue, hkey]
  rfl

theorem ascii_of_mem_lengthLine {n : Nat} {c : Char} (h : c ∈ lengthLine n ++ ['\r']) :
    c.toNat < 0x80 ∧ c ≠ '\n' := by
  have hkey : ("Content-Length: ".toList.all fun c => c.toNat < 0x80 && c ≠ '\n') = true := by
    decide
  rcases List.mem_append.mp h with h | h
  · rcases List.mem_append.mp h with h | h
    · simpa using List.all_eq_true.mp hkey c h
    · have hdigit := Integer.isDigit_of_mem h
      have := Integer.toNat_of_isDigit hdigit
      exact ⟨by omega, Integer.ne_of_isDigit hdigit (by decide)⟩
  · rw [List.mem_singleton.mp h]
    decide

theorem lengthLine_ne_nil (n : Nat) : lengthLine n ≠ [] :=
  List.append_ne_nil_of_right_ne_nil _ Nat.toDigits_ne_nil

theorem strip_lengthLine (n : Nat) :
    Text.strip Text.isHeaderBlank (lengthLine n ++ ['\r']) = lengthLine n := by
  refine @Text.strip_append Text.isHeaderBlank [] (lengthLine n) ['\r'] (lengthLine_ne_nil n)
    (List.forall_mem_nil _) (List.forall_mem_singleton.mpr (by decide)) ?_ ?_
  · intro c hc
    obtain rfl : 'C' = c := Option.some.inj hc
    decide
  · intro c hc
    unfold lengthLine at hc
    rw [List.getLast?_append, List.getLast?_eq_some_getLast Nat.toDigits_ne_nil,
      Option.some_or] at hc
    obtain rfl := Option.some.inj hc
    exact not_blank_of_isDigit (Integer.isDigit_of_mem (List.getLast_mem _))

theorem length_lengthLine (n : Nat) : (lengthLine n).length = (Nat.toDigits 10 n).length + 16 := by
  have hkey : "Content-Length: ".toList.length = 16 := by decide
  unfold lengthLine
  rw [List.length_append, hkey, Nat.add_comm]

/-- A stated length is the length that is known when the headers are complete. -/
theorem readHeaders_lengthLine {n : Nat} (hn : (Nat.toDigits 10 n).length ≤ Integer.digitLimit)
    (known : Option String) :
    readHeaders false known (encodeChars (lengthLine n ++ "\r\n\r\n".toList)) =
      .complete (some (String.ofList (Nat.toDigits 10 n))) [] := by
  have hascii : ∀ c ∈ lengthLine n ++ ['\r'], c.toNat < 0x80 := fun c hc =>
    (ascii_of_mem_lengthLine hc).1
  have hfeed : '\n' ∉ lengthLine n ++ ['\r'] := fun hc => (ascii_of_mem_lengthLine hc).2 rfl
  have hbytes : encodeChars (lengthLine n ++ "\r\n\r\n".toList) =
      (lengthLine n ++ ['\r']).map byte ++ lineFeed :: [0x0d, lineFeed] := by
    rw [← encodeChars_ascii hascii, Utf8.encodeChars_append, Utf8.encodeChars_append,
      List.append_assoc]
    rfl
  have hlimit : ¬ lineLimit < (lengthLine n ++ ['\r']).length := by
    rw [List.length_append, length_lengthLine, List.length_singleton]
    exact Nat.not_lt.mpr (Nat.le_trans (Nat.add_le_add_right hn 17) (by decide))
  obtain ⟨hline, hrest⟩ := line_of_ascii hascii hfeed [0x0d, lineFeed]
  rw [← List.length_map (f := byte), ← hline] at hlimit
  rw [hbytes, readHeaders_line hrest hlimit (by rw [hline, asciiText_map_byte hascii]),
    strip_lengthLine, if_neg (lengthLine_ne_nil n), lengthAfter_lengthLine]
  exact @readHeaders_line [0x0d, lineFeed] [] lineFeed ['\r'] rfl (by decide) rfl false _

theorem wrap_eq (body : Bytes) :
    wrap body = encodeChars (lengthLine body.length ++ "\r\n\r\n".toList) ++ body := by
  have hchars : (s!"Content-Length: {body.length}\r\n\r\n").toList =
      lengthLine body.length ++ "\r\n\r\n".toList := by
    simp only [String.toList_append, Nat.toString_eq_ofList_toDigits, String.toList_ofList]
    rfl
  rw [wrap, Utf8.encode_eq_encodeChars, hchars]

/-- A body that is wrapped up is carried, if its length is a number that can be read. -/
theorem carries_wrap {body : Bytes}
    (h : (Nat.toDigits 10 body.length).length ≤ Integer.digitLimit) : Carries (wrap body) body := by
  rw [wrap_eq]
  exact ⟨_, readHeaders_append (readHeaders_lengthLine h none) false body,
    Integer.ofText_toDigits h⟩

end Frame

end RenameServer
