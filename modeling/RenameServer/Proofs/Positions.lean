import RenameServer.LineIndex
import RenameServer.Proofs.Encoding

/-!
From offsets to positions and back. An offset between two characters, not
inside a CRLF, splits a text in two. Its position depends on the first part
only: the number of line ends in it and the width of what follows the last of
them. Read in any text that begins with this part, the position is the same
offset again.
-/
namespace RenameServer.Position

open Utf8 (Bytes encodeChars)

theorem head?_ne_lineFeed {c : Char} {rest : List Char}
    (h : ∀ more, c = '\r' → rest = '\n' :: more → False) : c = '\r' → rest.head? ≠ some '\n' := by
  intro hc hhead
  obtain ⟨more, hmore⟩ := List.head?_eq_some_iff.mp hhead
  exact h more hc hmore

/-- Induction along the line ends of a text. -/
@[elab_as_elim]
theorem lineInduction {motive : List Char → Prop} (text : List Char) (nil : motive [])
    (crlf : ∀ rest, motive rest → motive ('\r' :: '\n' :: rest))
    (stop : ∀ c rest, c = '\r' ∨ c = '\n' → (c = '\r' → rest.head? ≠ some '\n') → motive rest →
      motive (c :: rest))
    (plain : ∀ c rest, ¬(c = '\r' ∨ c = '\n') → motive rest → motive (c :: rest)) :
    motive text := by
  fun_induction lines text with
  | case1 => exact nil
  | case2 rest ih => exact crlf rest ih
  | case3 c rest hcrlf hstop ih => exact stop c rest hstop (head?_ne_lineFeed hcrlf) ih
  | case4 c rest _ hplain _ ih => exact plain c rest hplain ih
  | case5 c rest _ hplain _ _ _ ih => exact plain c rest hplain ih

/-- The line and the column at the end of a text. -/
def spot : List Char → Nat × Nat
  | [] => (0, 0)
  | '\r' :: '\n' :: rest => ((spot rest).1 + 1, (spot rest).2)
  | c :: rest =>
    if c = '\r' ∨ c = '\n' then ((spot rest).1 + 1, (spot rest).2)
    else if (spot rest).1 = 0 then (0, width c + (spot rest).2)
    else spot rest

/-- The offsets just after each line end, the first character being at `offset`. -/
def starts (offset : Nat) : List Char → List Nat
  | [] => []
  | '\r' :: '\n' :: rest => (offset + 2) :: starts (offset + 2) rest
  | c :: rest =>
    if c = '\r' ∨ c = '\n' then (offset + 1) :: starts (offset + 1) rest
    else starts (offset + c.utf8Size) rest

section

variable {c : Char} {rest : List Char}

theorem lines_stop (hc : c = '\r' ∨ c = '\n') (h : c = '\r' → rest.head? ≠ some '\n') :
    lines (c :: rest) = [c] :: lines rest := by
  rw [lines.eq_3 c rest fun more hr hrest => h hr (by rw [hrest]; rfl), if_pos hc]

theorem lines_plain (hc : ¬(c = '\r' ∨ c = '\n')) :
    lines (c :: rest) =
      match lines rest with
      | [] => [[c]]
      | l :: more => (c :: l) :: more := by
  exact (lines.eq_3 c rest fun more hr _ => hc (.inl hr)).trans (if_neg hc)

theorem spot_stop (hc : c = '\r' ∨ c = '\n') (h : c = '\r' → rest.head? ≠ some '\n') :
    spot (c :: rest) = ((spot rest).1 + 1, (spot rest).2) := by
  rw [spot.eq_3 c rest fun more hr hrest => h hr (by rw [hrest]; rfl), if_pos hc]

theorem spot_plain (hc : ¬(c = '\r' ∨ c = '\n')) :
    spot (c :: rest) =
      if (spot rest).1 = 0 then (0, width c + (spot rest).2) else spot rest := by
  rw [spot.eq_3 c rest fun more hr _ => hc (.inl hr), if_neg hc]

theorem starts_stop (hc : c = '\r' ∨ c = '\n') (h : c = '\r' → rest.head? ≠ some '\n')
    (offset : Nat) : starts offset (c :: rest) = (offset + 1) :: starts (offset + 1) rest := by
  rw [starts.eq_3 offset c rest fun more hr hrest => h hr (by rw [hrest]; rfl), if_pos hc]

theorem starts_plain (hc : ¬(c = '\r' ∨ c = '\n')) (offset : Nat) :
    starts offset (c :: rest) = starts (offset + c.utf8Size) rest := by
  rw [starts.eq_3 offset c rest fun more hr _ => hc (.inl hr), if_neg hc]

end

/-- The end of the first text is not inside a CRLF. -/
def NoSplit (p x : List Char) : Prop := p.getLast? = some '\r' → x.head? ≠ some '\n'

theorem noSplit_nil (x : List Char) : NoSplit [] x := by
  intro hlast
  cases hlast

theorem NoSplit.of_cons {c : Char} {p x : List Char} (h : NoSplit (c :: p) x) : NoSplit p x := by
  intro hlast
  cases p with
  | nil => cases hlast
  | cons d p => exact h (by rwa [List.getLast?_cons_cons])

/-- The end of a text that starts with a carriage return, seen in front of another. -/
theorem NoSplit.head {c : Char} {p x : List Char} (h : NoSplit (c :: p) x)
    (hp : c = '\r' → p.head? ≠ some '\n') : c = '\r' → (p ++ x).head? ≠ some '\n' := by
  intro hc
  cases p with
  | nil => exact h (by rw [hc]; rfl)
  | cons d p => exact hp hc

/-- The end of a text in two parts, from the ends of the parts. -/
theorem spot_append (p x : List Char) (h : NoSplit p x) :
    spot (p ++ x) =
      if (spot x).1 = 0 then ((spot p).1, (spot p).2 + (spot x).2)
      else ((spot p).1 + (spot x).1, (spot x).2) := by
  induction p using lineInduction with
  | nil =>
    rw [List.nil_append, spot, Nat.zero_add, Nat.zero_add]
    split_ifs with hline
    · rw [← hline]
    · rfl
  | crlf p ih =>
    rw [List.cons_append, List.cons_append, spot, spot, ih h.of_cons.of_cons]
    split_ifs
    · rfl
    · rw [Nat.add_right_comm]
  | stop c p hc hp ih =>
    rw [List.cons_append, spot_stop hc (h.head hp), spot_stop hc hp, ih h.of_cons]
    split_ifs
    · rfl
    · rw [Nat.add_right_comm]
  | plain c p hc ih =>
    rw [List.cons_append, spot_plain hc, spot_plain hc, ih h.of_cons]
    by_cases hx : (spot x).1 = 0
    · rw [if_pos hx, if_pos hx]
      split_ifs with hp
      · rw [Nat.add_assoc]
      · rfl
    · rw [if_neg hx, if_neg hx, if_neg (by omega)]
      split_ifs with hp
      · rw [hp]
      · rfl

@[simp] theorem byteLength_nil : byteLength [] = 0 := rfl

@[simp] theorem byteLength_cons (c : Char) (text : List Char) :
    byteLength (c :: text) = c.utf8Size + byteLength text :=
  rfl

theorem byteLength_crlf (text : List Char) :
    byteLength ('\r' :: '\n' :: text) = 2 + byteLength text := by
  have hreturn : '\r'.utf8Size = 1 := rfl
  have hfeed : '\n'.utf8Size = 1 := rfl
  rw [byteLength_cons, byteLength_cons, hreturn, hfeed, ← Nat.add_assoc]

theorem byteLength_stop {c : Char} (hc : c = '\r' ∨ c = '\n') (text : List Char) :
    byteLength (c :: text) = 1 + byteLength text := by
  have hsize : c.utf8Size = 1 := by rcases hc with rfl | rfl <;> rfl
  rw [byteLength_cons, hsize]

theorem eq_nil_of_byteLength_eq_zero {text : List Char} (h : byteLength text = 0) :
    text = [] := by
  cases text with
  | nil => rfl
  | cons c rest =>
    have := c.utf8Size_pos
    rw [byteLength_cons] at h
    omega

theorem byteLength_append (p x : List Char) :
    byteLength (p ++ x) = byteLength p + byteLength x := by
  induction p with
  | nil => rw [List.nil_append, byteLength_nil, Nat.zero_add]
  | cons c rest ih => rw [List.cons_append, byteLength_cons, byteLength_cons, ih, Nat.add_assoc]

theorem byteLength_eq (text : List Char) : byteLength text = (encodeChars text).length := by
  induction text with
  | nil => rfl
  | cons c rest ih =>
    rw [Utf8.encodeChars_cons, List.length_append, ← ih, String.length_utf8EncodeChar,
      byteLength_cons]

theorem columnBytes_zero (line : List Char) : columnBytes 0 line = 0 := by
  cases line with
  | nil => rfl
  | cons c rest =>
    have hwidth : ¬ width c ≤ 0 := by
      rw [width]
      split <;> decide
    rw [columnBytes, if_neg hwidth]

theorem columnBytes_le (units : Nat) (line : List Char) :
    columnBytes units line ≤ byteLength line := by
  induction line generalizing units with
  | nil => exact Nat.le_refl 0
  | cons c rest ih =>
    rw [columnBytes, byteLength_cons]
    split
    · have := ih (units - width c)
      omega
    · omega

theorem offsetIn_zero (ls : List (List Char)) : offsetIn 0 0 ls = 0 := by
  cases ls with
  | nil => rfl
  | cons l more => exact columnBytes_zero (content l)

theorem content_cons {c : Char} (hc : ¬(c = '\r' ∨ c = '\n')) (l : List Char) :
    content (c :: l) = c :: content l := by
  rw [content, List.takeWhile_cons_of_pos (by simpa using hc)]
  rfl

/-- A character that ends no line moves the columns of its own line. -/
theorem offsetIn_plain_column {c : Char} (hc : ¬(c = '\r' ∨ c = '\n')) (rest : List Char)
    (column : Nat) : offsetIn 0 (width c + column) (lines (c :: rest)) =
      c.utf8Size + offsetIn 0 column (lines rest) := by
  have hcolumn : ∀ l, columnBytes (width c + column) (content (c :: l)) =
      c.utf8Size + columnBytes column (content l) := by
    intro l
    rw [content_cons hc, columnBytes, if_pos (Nat.le_add_right ..), Nat.add_sub_cancel_left]
  rw [lines_plain hc]
  cases lines rest with
  | nil => exact hcolumn []
  | cons l more => exact hcolumn l

/-- It moves the lines after its own as a whole. -/
theorem offsetIn_plain_line {c : Char} (hc : ¬(c = '\r' ∨ c = '\n')) (rest : List Char)
    (line column : Nat) : offsetIn (line + 1) column (lines (c :: rest)) =
      c.utf8Size + offsetIn (line + 1) column (lines rest) := by
  rw [lines_plain hc]
  cases lines rest with
  | nil => simp [offsetIn]
  | cons l more => simp only [offsetIn, byteLength_cons, Nat.add_assoc]

/-- The place at the end of a text is its length in every text that it begins. -/
theorem offsetIn_spot (p x : List Char) (h : NoSplit p x) :
    offsetIn (spot p).1 (spot p).2 (lines (p ++ x)) = byteLength p := by
  induction p using lineInduction with
  | nil => exact offsetIn_zero _
  | crlf p ih =>
    have hrest := ih h.of_cons.of_cons
    simp only [spot, List.cons_append, lines, offsetIn, hrest, byteLength_cons, byteLength_nil]
    omega
  | stop c p hc hp ih =>
    have hrest := ih h.of_cons
    rw [spot_stop hc hp, List.cons_append, lines_stop hc (h.head hp), offsetIn, hrest]
    simp
  | plain c p hc ih =>
    have hrest := ih h.of_cons
    rw [spot_plain hc, List.cons_append, byteLength_cons]
    cases hline : (spot p).1 with
    | zero =>
      rw [hline] at hrest
      rw [if_pos rfl, offsetIn_plain_column hc, hrest]
    | succ n =>
      rw [hline] at hrest
      rw [if_neg (Nat.succ_ne_zero n), hline, offsetIn_plain_line hc, hrest]

theorem toOffset_natCast (line column : Nat) (text : String) :
    toOffset ⟨line, column⟩ text = .ok (offsetIn line column (lines text.toList)) := by
  rw [toOffset, if_neg (by simp), Int.toNat_natCast, Int.toNat_natCast]

theorem toOffset_spot {p x : List Char} (h : NoSplit p x) :
    toOffset ⟨(spot p).1, (spot p).2⟩ (String.ofList (p ++ x)) = .ok (byteLength p) := by
  rw [toOffset_natCast, String.toList_ofList, offsetIn_spot p x h]

theorem starts_append (p x : List Char) (h : NoSplit p x) (offset : Nat) :
    starts offset (p ++ x) = starts offset p ++ starts (offset + byteLength p) x := by
  induction p using lineInduction generalizing offset with
  | nil => rfl
  | crlf p ih =>
    rw [List.cons_append, List.cons_append, starts, starts, ih h.of_cons.of_cons, byteLength_crlf,
      List.cons_append, Nat.add_assoc]
  | stop c p hc hp ih =>
    rw [List.cons_append, starts_stop hc (h.head hp), starts_stop hc hp, ih h.of_cons,
      byteLength_stop hc, List.cons_append, Nat.add_assoc]
  | plain c p hc ih =>
    rw [List.cons_append, starts_plain hc, starts_plain hc, ih h.of_cons, byteLength_cons,
      Nat.add_assoc]

/-- There are as many starts as line ends. -/
theorem length_starts (p : List Char) (offset : Nat) : (starts offset p).length = (spot p).1 := by
  induction p using lineInduction generalizing offset with
  | nil => rfl
  | crlf p ih => rw [starts, spot, List.length_cons, ih]
  | stop c p hc hp ih => rw [starts_stop hc hp, spot_stop hc hp, List.length_cons, ih]
  | plain c p hc ih =>
    rw [starts_plain hc, spot_plain hc, ih]
    split_ifs with hline
    · exact hline
    · rfl

theorem mem_starts {p : List Char} {offset s : Nat} (h : s ∈ starts offset p) :
    offset < s ∧ s ≤ offset + byteLength p := by
  induction p using lineInduction generalizing offset with
  | nil => cases h
  | crlf p ih =>
    rw [starts] at h
    rw [byteLength_crlf]
    rcases List.mem_cons.mp h with rfl | h
    · omega
    · have := ih h
      omega
  | stop c p hc hp ih =>
    rw [starts_stop hc hp] at h
    rw [byteLength_stop hc]
    rcases List.mem_cons.mp h with rfl | h
    · omega
    · have := ih h
      omega
  | plain c p hc ih =>
    rw [starts_plain hc] at h
    rw [byteLength_cons]
    have := ih h
    omega

/-- The UTF-16 code units of a text. -/
def units (text : List Char) : Nat := text.foldr (fun c n => width c + n) 0

/-- The last line of a text: where it starts, and its width. -/
theorem exists_last_line (p : List Char) (offset : Nat) :
    ∃ q r, p = q ++ r ∧ (starts offset p).getLastD offset = offset + byteLength q ∧
      (spot p).2 = units r := by
  induction p using lineInduction generalizing offset with
  | nil => exact ⟨[], [], rfl, rfl, rfl⟩
  | crlf p ih =>
    obtain ⟨q, r, rfl, hstart, hcolumn⟩ := ih (offset + 2)
    refine ⟨'\r' :: '\n' :: q, r, rfl, ?_, ?_⟩
    · rw [starts, List.getLastD_cons, hstart, byteLength_crlf, Nat.add_assoc]
    · rw [spot, hcolumn]
  | stop c p hc hp ih =>
    obtain ⟨q, r, rfl, hstart, hcolumn⟩ := ih (offset + 1)
    refine ⟨c :: q, r, rfl, ?_, ?_⟩
    · rw [starts_stop hc hp, List.getLastD_cons, hstart, byteLength_stop hc, Nat.add_assoc]
    · rw [spot_stop hc hp, hcolumn]
  | plain c p hc ih =>
    obtain ⟨q, r, rfl, hstart, hcolumn⟩ := ih (offset + c.utf8Size)
    have hlength := length_starts (q ++ r) (offset + c.utf8Size)
    rw [starts_plain hc, spot_plain hc]
    split_ifs with hline
    · have hnil : starts (offset + c.utf8Size) (q ++ r) = [] :=
        List.eq_nil_of_length_eq_zero (hlength.trans hline)
      rw [hnil, List.getLastD_nil] at hstart
      obtain rfl : q = [] := eq_nil_of_byteLength_eq_zero (by omega)
      refine ⟨[], c :: r, rfl, ?_, ?_⟩
      · rw [hnil]
        rfl
      · rw [hcolumn, units, units, List.foldr_cons]
    · refine ⟨c :: q, r, rfl, ?_, hcolumn⟩
      have hne : starts (offset + c.utf8Size) (q ++ r) ≠ [] :=
        fun hnil => hline (by rw [← hlength, hnil]; rfl)
      rw [byteLength_cons, ← Nat.add_assoc, ← hstart]
      obtain ⟨s, more, hcons⟩ := List.exists_cons_of_ne_nil hne
      rw [hcons, List.getLastD_cons, List.getLastD_cons]

/-- The first line of a text, up to the next start or the end. -/
theorem exists_first_line (x : List Char) (offset : Nat) :
    ∃ l more, x = l ++ more ∧ l.head? = x.head? ∧
      (starts offset x).headD (offset + byteLength x) = offset + byteLength l := by
  induction x using lineInduction generalizing offset with
  | nil => exact ⟨[], [], rfl, rfl, rfl⟩
  | crlf p ih =>
    exact ⟨['\r', '\n'], p, rfl, rfl, by rw [starts, List.headD_cons, byteLength_crlf]; rfl⟩
  | stop c p hc hp ih =>
    exact ⟨[c], p, rfl, rfl, by rw [starts_stop hc hp, List.headD_cons, byteLength_stop hc]; rfl⟩
  | plain c p hc ih =>
    obtain ⟨l, more, rfl, -, hl⟩ := ih (offset + c.utf8Size)
    refine ⟨c :: l, more, rfl, rfl, ?_⟩
    rw [starts_plain hc, byteLength_cons, byteLength_cons, ← Nat.add_assoc, hl, Nat.add_assoc]

/-- A number of bytes that does not reach the end of the first character of a text. -/
def Inside (k : Nat) : List Char → Prop
  | [] => k = 0
  | c :: _ => k < c.utf8Size

theorem inside_zero (x : List Char) : Inside 0 x := by
  cases x with
  | nil => rfl
  | cons c rest => exact c.utf8Size_pos

theorem Inside.le_byteLength {k : Nat} {x : List Char} (h : Inside k x) : k ≤ byteLength x := by
  cases x with
  | nil => exact Nat.le_of_eq h
  | cons c rest =>
    have hsize : k < c.utf8Size := h
    rw [byteLength_cons]
    omega

theorem Inside.of_head? {k : Nat} {x l : List Char} (h : Inside k x) (hl : l.head? = x.head?) :
    Inside k l := by
  cases l with
  | nil =>
    rw [List.head?_nil, eq_comm, List.head?_eq_none_iff] at hl
    rwa [hl] at h
  | cons c l =>
    obtain ⟨rest, rfl⟩ := List.head?_eq_some_iff.mp hl.symm
    exact h

/-- A character that is entered ends no line. -/
theorem Inside.plain {k : Nat} {c : Char} {rest : List Char} (h : Inside k (c :: rest))
    (hk : 0 < k) : ¬(c = '\r' ∨ c = '\n') := by
  have hsize : k < c.utf8Size := h
  rintro (rfl | rfl)
  · have : '\r'.utf8Size = 1 := rfl
    omega
  · have : '\n'.utf8Size = 1 := rfl
    omega

/-- No line starts before the end of a character that is entered. -/
theorem Inside.lt_of_mem_starts {k : Nat} {x : List Char} (h : Inside k x) {offset s : Nat}
    (hs : s ∈ starts offset x) : offset + k < s := by
  rcases Nat.eq_zero_or_pos k with rfl | hk
  · exact (mem_starts hs).1
  · cases x with
    | nil => cases hs
    | cons c rest =>
      rw [starts_plain (h.plain hk)] at hs
      have hbounds := mem_starts hs
      have hsize : k < c.utf8Size := h
      omega

/-- The column after the first characters of a line, also inside the next one. -/
theorem columnAt_units (r : List Char) {l : List Char} {k : Nat} (h : Inside k l) :
    LineIndex.columnAt (byteLength r + k) (r ++ l) = units r := by
  induction r with
  | nil =>
    rw [byteLength_nil, Nat.zero_add, List.nil_append]
    cases l with
    | nil => rfl
    | cons c l =>
      have hsize : k < c.utf8Size := h
      rw [LineIndex.columnAt, if_pos hsize]
      rfl
  | cons c r ih =>
    rw [List.cons_append, LineIndex.columnAt, byteLength_cons, if_neg (by omega), Nat.add_assoc,
      Nat.add_sub_cancel_left, ih]
    rfl

end RenameServer.Position

namespace RenameServer.LineIndex

open Utf8 (Bytes encodeChars)
open Position

/-- Bytes without line ends start no line. -/
theorem startsFrom_append {bytes : Bytes} (h : ∀ b ∈ bytes, b ≠ 0x0d ∧ b ≠ 0x0a) (offset : Nat)
    (rest : Bytes) :
    startsFrom offset (bytes ++ rest) = startsFrom (offset + bytes.length) rest := by
  induction bytes generalizing offset with
  | nil => rfl
  | cons b bytes ih =>
    obtain ⟨hreturn, hfeed⟩ := h b (List.mem_cons_self ..)
    rw [List.cons_append, startsFrom.eq_3 offset b _ fun _ hb _ => hreturn hb,
      if_neg (fun hb => hb.elim hreturn hfeed), ih fun c hc => h c (List.mem_cons_of_mem _ hc),
      List.length_cons]
    congr 1
    omega

/-- The bytes of a character that ends no line. -/
theorem encodeChar_plain {c : Char} (hc : ¬(c = '\r' ∨ c = '\n')) :
    ∀ b ∈ String.utf8EncodeChar c, b ≠ 0x0d ∧ b ≠ 0x0a := by
  intro b hb
  refine ⟨?_, ?_⟩
  · rintro rfl
    exact hc (.inl (Utf8.mem_encodeChar_ascii (d := '\r') (by decide) hb))
  · rintro rfl
    exact hc (.inr (Utf8.mem_encodeChar_ascii (d := '\n') (by decide) hb))

theorem encodeChars_return (text : List Char) :
    encodeChars ('\r' :: text) = 0x0d :: encodeChars text := rfl

theorem encodeChars_feed (text : List Char) :
    encodeChars ('\n' :: text) = 0x0a :: encodeChars text := rfl

/-- The bytes of a text start with a line feed only if the text does. -/
theorem encodeChars_ne_feed {text : List Char} (h : text.head? ≠ some '\n') (more : Bytes) :
    encodeChars text ≠ 0x0a :: more := by
  cases text with
  | nil => exact List.cons_ne_nil _ _ |>.symm
  | cons c rest =>
    intro hbytes
    obtain ⟨b, tail, hb, -⟩ := Utf8.encodeChar_tail c
    rw [Utf8.encodeChars_cons, hb, List.cons_append, List.cons.injEq] at hbytes
    have hc : c = '\n' := Utf8.mem_encodeChar_ascii (d := '\n') (by decide)
      (by rw [hb, hbytes.1]; exact List.mem_cons_self ..)
    exact h (by rw [hc]; rfl)

theorem startsFrom_encodeChars (text : List Char) (offset : Nat) :
    startsFrom offset (encodeChars text) = Position.starts offset text := by
  induction text using lineInduction generalizing offset with
  | nil => rfl
  | crlf rest ih => rw [encodeChars_return, encodeChars_feed, startsFrom, Position.starts, ih]
  | stop c rest hc hp ih =>
    have hbyte : ∃ b, encodeChars (c :: rest) = b :: encodeChars rest ∧ (b = 0x0d ∨ b = 0x0a) ∧
        (b = 0x0d → c = '\r') := by
      rcases hc with rfl | rfl
      · exact ⟨0x0d, rfl, .inl rfl, fun _ => rfl⟩
      · exact ⟨0x0a, rfl, .inr rfl, fun h => absurd h (by decide)⟩
    obtain ⟨b, hbytes, hb, hreturn⟩ := hbyte
    rw [starts_stop hc hp, hbytes, startsFrom.eq_3 offset b _ fun more hr hmore =>
      encodeChars_ne_feed (hp (hreturn hr)) more hmore, if_pos hb, ih]
  | plain c rest hc ih =>
    rw [starts_plain hc, Utf8.encodeChars_cons, startsFrom_append (encodeChar_plain hc), ih,
      String.length_utf8EncodeChar]

theorem getElem?_of_take_two {bytes : Bytes} {o : Nat} {a b : UInt8} (ho : 0 < o)
    (h : (bytes.drop (o - 1)).take 2 = [a, b]) : bytes[o]? = some b := by
  have hsecond := congrArg (fun pair : Bytes => pair[1]?) h
  simpa [List.getElem?_take, List.getElem?_drop, Nat.sub_add_cancel ho] using hsecond

/-- Inside a character there is no line feed. -/
theorem take_two_ne_inside (p : List Char) {x : List Char} {k : Nat} (h : Inside k x)
    (hk : 0 < k) :
    ((encodeChars (p ++ x)).drop (byteLength p + k - 1)).take 2 ≠ [0x0d, 0x0a] := by
  intro htake
  have hbyte := getElem?_of_take_two (by omega) htake
  cases x with
  | nil => exact absurd h (by simp only [Inside]; omega)
  | cons c rest =>
    obtain ⟨first, tail, hchar, htail⟩ := Utf8.encodeChar_tail c
    have hsize : k < (first :: tail).length := by
      rw [← hchar, String.length_utf8EncodeChar]
      exact h
    rw [Utf8.encodeChars_append, Utf8.encodeChars_cons, byteLength_eq,
      List.getElem?_append_right (Nat.le_add_right ..), Nat.add_sub_cancel_left, hchar,
      List.getElem?_append_left hsize] at hbyte
    obtain ⟨j, rfl⟩ : ∃ j, k = j + 1 := ⟨k - 1, by omega⟩
    rw [List.getElem?_cons_succ] at hbyte
    exact absurd (htail _ (List.mem_of_getElem? hbyte)).1 (by decide)

/-- Around the end of the first text there is no CRLF. -/
theorem take_two_ne_end {p x : List Char} (h : NoSplit p x) (hp : p ≠ []) :
    ((encodeChars (p ++ x)).drop (byteLength p - 1)).take 2 ≠ [0x0d, 0x0a] := by
  obtain ⟨q, c, rfl⟩ := (List.eq_nil_or_concat p).resolve_left hp
  obtain ⟨first, tail, hchar, -⟩ := Utf8.encodeChar_tail c
  obtain ⟨pre, b, hpre⟩ := (List.eq_nil_or_concat (String.utf8EncodeChar c)).resolve_left
    (by rw [hchar]; exact List.cons_ne_nil _ _)
  have hbytes : encodeChars (q.concat c ++ x) = (encodeChars q ++ pre) ++ b :: encodeChars x := by
    simp [hpre]
  have hlength : byteLength (q.concat c) - 1 = (encodeChars q ++ pre).length := by
    simp [byteLength_eq, hpre]
  rw [hbytes, hlength, List.drop_left]
  intro htake
  obtain ⟨rfl, hfeed⟩ := List.cons.inj htake
  have hmem : (0x0d : UInt8) ∈ String.utf8EncodeChar c := by
    rw [hpre]
    simp
  have hc : c = '\r' := Utf8.mem_encodeChar_ascii (d := '\r') (by decide) hmem
  have hx := h (by rw [hc]; simp)
  cases hrest : encodeChars x with
  | nil => rw [hrest] at hfeed; cases hfeed
  | cons d more =>
    rw [hrest] at hfeed
    exact encodeChars_ne_feed hx more (hrest.trans (by simp at hfeed; rw [hfeed]))

/-- An offset that is not inside a CRLF. -/
theorem take_two_ne_crlf {p x : List Char} {k : Nat} (h : NoSplit p x) (hk : Inside k x)
    (hpos : 0 < byteLength p + k) :
    ((encodeChars (p ++ x)).drop (byteLength p + k - 1)).take 2 ≠ [0x0d, 0x0a] := by
  rcases Nat.eq_zero_or_pos k with rfl | hk'
  · refine take_two_ne_end h ?_
    rintro rfl
    exact absurd hpos (Nat.lt_irrefl 0)
  · exact take_two_ne_inside p hk hk'

theorem getElem?_length (a : Nat) (left right : List Nat) :
    (a :: (left ++ right))[left.length]? = some (left.getLastD a) := by
  induction left generalizing a with
  | nil => rfl
  | cons b left ih => rw [List.getLastD_cons, ← ih b]; rfl

theorem getD_length_succ (a : Nat) (left right : List Nat) (d : Nat) :
    (a :: (left ++ right)).getD (left.length + 1) d = right.headD d := by
  induction left generalizing a with
  | nil => cases right <;> rfl
  | cons b left ih => exact ih b

theorem bytes_ofText (text : List Char) :
    (ofText (String.ofList text)).bytes = encodeChars text :=
  Utf8.encode_ofList text

theorem starts_ofText {p x : List Char} (h : NoSplit p x) :
    (ofText (String.ofList (p ++ x))).starts =
      0 :: (Position.starts 0 p ++ Position.starts (byteLength p) x) := by
  rw [ofText, Utf8.encode_ofList, startsFrom_encodeChars, starts_append p x h, Nat.zero_add]

/-- The starts up to an offset are those in the first text, if the others come later. -/
theorem length_filter_starts {p x : List Char} {n : Nat} (hp : byteLength p ≤ n)
    (hx : ∀ s ∈ Position.starts (byteLength p) x, n < s) :
    ((0 :: (Position.starts 0 p ++ Position.starts (byteLength p) x)).filter
      fun s => s ≤ n).length = (Position.starts 0 p).length + 1 := by
  have hleft : (Position.starts 0 p).filter (fun s => s ≤ n) = Position.starts 0 p := by
    refine List.filter_eq_self.mpr fun s hs => ?_
    have := mem_starts hs
    simp only [decide_eq_true_eq]
    omega
  have hright : (Position.starts (byteLength p) x).filter (fun s => s ≤ n) = [] := by
    refine List.filter_eq_nil_iff.mpr fun s hs => ?_
    have := hx s hs
    simp only [decide_eq_true_eq]
    omega
  rw [List.filter_cons_of_pos (by simp), List.filter_append, hleft, hright]
  simp

/-- The bytes of the line around the end of the first text. -/
theorem lineBytes_ofText {p x q r l more : List Char} (h : NoSplit p x) (hp : p = q ++ r)
    (hx : x = l ++ more)
    (hfirst : (Position.starts (byteLength p) x).headD (byteLength p + byteLength x) =
      byteLength p + byteLength l) :
    (ofText (String.ofList (p ++ x))).lineBytes (Position.starts 0 p).length (byteLength q) =
      encodeChars (r ++ l) := by
  have hlength : (encodeChars (p ++ x)).length = byteLength p + byteLength x := by
    rw [← byteLength_eq, byteLength_append]
  have hline : byteLength p + byteLength l - byteLength q = (encodeChars (r ++ l)).length := by
    rw [← byteLength_eq, hp, byteLength_append, byteLength_append]
    omega
  have hsplit : encodeChars (p ++ x) =
      encodeChars q ++ (encodeChars (r ++ l) ++ encodeChars more) := by
    simp [hp, hx]
  rw [lineBytes, starts_ofText h, bytes_ofText, getD_length_succ, hlength, hfirst, hline,
    byteLength_eq, hsplit, List.drop_left, List.take_left]

/-- What a query for the end of the first text, or for an offset inside the next
character, finds: its line, where this line starts, and the bytes of the line. -/
theorem exists_line {p x : List Char} {k : Nat} (h : NoSplit p x) (hk : Inside k x) :
    let index := ofText (String.ofList (p ++ x))
    ∃ q r l, p = q ++ r ∧ Inside k l ∧ (spot p).2 = units r ∧
      (index.starts.filter fun s => s ≤ byteLength p + k).length = (spot p).1 + 1 ∧
      index.starts[(spot p).1]? = some (byteLength q) ∧
      index.lineBytes (spot p).1 (byteLength q) = encodeChars (r ++ l) := by
  intro index
  obtain ⟨q, r, hp, hlast, hcolumn⟩ := exists_last_line p 0
  obtain ⟨l, more, hx, hhead, hfirst⟩ := exists_first_line x (byteLength p)
  rw [Nat.zero_add] at hlast
  refine ⟨q, r, l, hp, hk.of_head? hhead, hcolumn, ?_, ?_, ?_⟩
  · rw [starts_ofText h, length_filter_starts (Nat.le_add_right ..) fun s => hk.lt_of_mem_starts,
      length_starts]
  · rw [starts_ofText h, ← length_starts p 0, getElem?_length, hlast]
  · rw [← length_starts p 0, lineBytes_ofText h hp hx hfirst]

/-- The position of the end of the first text, and of offsets inside the next character. -/
theorem locate_inside {p x : List Char} {k : Nat} (h : NoSplit p x) (hk : Inside k x) :
    (ofText (String.ofList (p ++ x))).locate (byteLength p + k) = ⟨(spot p).1, (spot p).2⟩ := by
  obtain ⟨q, r, l, hp, hl, hcolumn, hcount, hstart, hbytes⟩ := exists_line h hk
  have hcrlf : ¬(byteLength q < byteLength p + k ∧
      ((encodeChars (p ++ x)).drop (byteLength p + k - 1)).take 2 = [0x0d, 0x0a]) := by
    rintro ⟨hlt, htake⟩
    exact take_two_ne_crlf h hk (Nat.zero_lt_of_lt hlt) htake
  have hoffset : byteLength p + k - byteLength q = byteLength r + k := by
    rw [hp, byteLength_append]
    omega
  rw [locate, hcount, Nat.add_sub_cancel, List.getD_eq_getElem?_getD, hstart, Option.getD_some,
    bytes_ofText, if_neg hcrlf, lineChars, List.getD_eq_getElem?_getD, hstart, Option.getD_some,
    hbytes, Utf8.decodeLossy_encodeChars, hoffset, columnAt_units r hl, hcolumn]

theorem locate_spot {p x : List Char} (h : NoSplit p x) :
    (ofText (String.ofList (p ++ x))).locate (byteLength p) = ⟨(spot p).1, (spot p).2⟩ := by
  have hinside := locate_inside h (inside_zero x)
  rwa [Nat.add_zero] at hinside

/-- The position of an offset is the same offset in every text with the same start. -/
theorem toOffset_locate {p x y : List Char} (hx : NoSplit p x) (hy : NoSplit p y) :
    ((ofText (String.ofList (p ++ x))).locate (byteLength p)).toOffset (String.ofList (p ++ y)) =
      .ok (byteLength p) := by
  rw [locate_spot hx, toOffset_spot hy]

end RenameServer.LineIndex
