import RenameServer.Proofs.Literals
import RenameServer.Proofs.Positions

/-!
Texts as UTF-16 code units, and places in them by line and column. A place is
looked up in the units alone: lines end where the units of a line end stand, a
column stops at the end of the line's content, and between the two halves of a
surrogate pair it goes back by one. The beginning of a text that a place cuts
off is the same whether it is looked up in the units or in the characters.
-/
namespace RenameServer.Utf16

open Position (width byteLength lines offsetIn columnBytes content lineInduction)

/-- The first half of a surrogate pair. -/
def isHigh (u : Nat) : Bool := 0xd800 ≤ u ∧ u < 0xdc00

/-- The second half of a surrogate pair. -/
def isLow (u : Nat) : Bool := 0xdc00 ≤ u ∧ u < 0xe000

def encodeChar (c : Char) : List Nat :=
  if 0xffff < c.toNat then
    [0xd800 + (c.toNat - 0x10000) / 0x400, 0xdc00 + (c.toNat - 0x10000) % 0x400]
  else [c.toNat]

/-- The code units of a text. -/
def encode (text : List Char) : List Nat := text.flatMap encodeChar

/-- A unit that belongs to a line end. -/
def isBreak (u : Nat) : Bool := u = 0x0d ∨ u = 0x0a

/-- The units after the first line end, if there is one. -/
def afterLine? : List Nat → Option (List Nat)
  | [] => none
  | u :: rest =>
    if u = 0x0d ∧ rest.head? = some 0x0a then some rest.tail
    else if isBreak u then some rest
    else afterLine? rest

/-- A column of a line without its end: not past it, and not inside a pair. -/
def column (units : List Nat) (character : Nat) : Nat :=
  let n := min character units.length
  if 0 < n ∧ (units[n - 1]?.any isHigh) ∧ (units[n]?.any isLow) then n - 1 else n

/-- The number of units before a place. A line past the end is the end. -/
def place (line character : Nat) (units : List Nat) : Nat :=
  match line with
  | 0 => column (units.takeWhile fun u => !isBreak u) character
  | n + 1 =>
    match afterLine? units with
    | none => units.length
    | some rest => units.length - rest.length + place n character rest

@[simp] theorem encode_nil : encode [] = [] := rfl

@[simp] theorem encode_cons (c : Char) (text : List Char) :
    encode (c :: text) = encodeChar c ++ encode text := rfl

@[simp] theorem encode_append (p x : List Char) : encode (p ++ x) = encode p ++ encode x :=
  List.flatMap_append

/-- A character is one unit that is no half of a pair, or a pair. -/
theorem encodeChar_cases (c : Char) :
    (width c = 1 ∧ encodeChar c = [c.toNat] ∧ isHigh c.toNat = false ∧ isLow c.toNat = false) ∨
      (width c = 2 ∧ ∃ high low, encodeChar c = [high, low] ∧ isHigh high = true ∧
        isLow low = true ∧ c.toNat = 0x10000 + (high - 0xd800) * 0x400 + (low - 0xdc00)) := by
  have hvalid := Json.not_surrogate c
  have hbound : c.toNat < 0x110000 := by
    have hval := c.valid
    simp only [UInt32.isValidChar, Nat.isValidChar] at hval
    have heq : c.toNat = c.val.toNat := rfl
    omega
  rw [width, encodeChar]
  by_cases hwide : 0xffff < c.toNat
  · rw [if_pos hwide, if_pos hwide]
    refine .inr ⟨rfl, _, _, rfl, ?_⟩
    simp only [isHigh, isLow, decide_eq_true_eq]
    omega
  · rw [if_neg hwide, if_neg hwide]
    refine .inl ⟨rfl, rfl, ?_⟩
    simp only [isHigh, isLow, decide_eq_false_iff_not]
    omega

/-- Units are read back as the text that they came from. -/
theorem joinUnits_encode (text : List Char) :
    Json.joinUnits (encode text) = text.map .char := by
  induction text with
  | nil => rfl
  | cons c text ih =>
    rw [encode_cons]
    rcases encodeChar_cases c with
      ⟨-, hunits, hhigh, hlow⟩ | ⟨-, high, low, hunits, hhigh, hlow, hc⟩
    · rw [hunits, List.singleton_append]
      cases hrest : encode text with
      | nil =>
        rw [hrest] at ih
        rw [List.map_cons, ← ih]
        exact congrArg (· :: []) (Json.ofNat_toNat c)
      | cons u rest =>
        have hsingle := Json.not_surrogate c
        rw [Json.joinUnits, if_neg (by omega), Json.ofNat_toNat, ← hrest, ih, List.map_cons]
    · simp only [isHigh, isLow, decide_eq_true_eq] at hhigh hlow
      rw [hunits, List.cons_append, List.cons_append, List.nil_append, Json.joinUnits,
        if_pos (by omega), ih, ← hc, Char.ofNat_toNat, List.map_cons]

/-! ### Columns -/

/-- Behind a unit that is no first half, columns are counted on. -/
theorem column_cons {u : Nat} (hu : isHigh u = false) (line : List Nat) (character : Nat) :
    column (u :: line) (character + 1) = column line character + 1 := by
  have hmin : min (character + 1) (u :: line).length = min character line.length + 1 := by
    rw [List.length_cons]
    omega
  simp only [column, hmin, Nat.add_sub_cancel, List.getElem?_cons_succ]
  cases hn : min character line.length with
  | zero => simp [hu]
  | succ n =>
    simp only [Nat.add_sub_cancel, List.getElem?_cons_succ, Nat.succ_pos, true_and]
    split <;> rfl

theorem column_zero (line : List Nat) : column line 0 = 0 := by
  simp [column]

theorem isHigh_of_isLow {u : Nat} (h : isLow u = true) : isHigh u = false := by
  simp only [isLow, isHigh, decide_eq_true_eq, decide_eq_false_iff_not] at *
  omega

/-- Inside a pair a column goes back to its start. -/
theorem column_inside {high low : Nat} (hhigh : isHigh high = true) (hlow : isLow low = true)
    (line : List Nat) : column (high :: low :: line) 1 = 0 := by
  simp [column, hhigh, hlow]

/-- Behind a pair, columns are counted on. -/
theorem column_pair {low : Nat} (hlow : isLow low = true) (high : Nat) (line : List Nat)
    (character : Nat) :
    column (high :: low :: line) (character + 2) = column line character + 2 := by
  have hmin : min (character + 2) (high :: low :: line).length =
      min character line.length + 1 + 1 := by
    simp only [List.length_cons]
    omega
  simp only [column, hmin, Nat.add_sub_cancel, List.getElem?_cons_succ]
  cases hn : min character line.length with
  | zero => simp [isHigh_of_isLow hlow]
  | succ n =>
    simp only [Nat.add_sub_cancel, List.getElem?_cons_succ, Nat.succ_pos, true_and]
    split <;> rfl

/-- A column cuts off the same characters of a line in bytes and in units. -/
theorem exists_split_column (line : List Char) (character : Nat) :
    ∃ p x, line = p ++ x ∧ columnBytes character line = byteLength p ∧
      column (encode line) character = (encode p).length := by
  induction line generalizing character with
  | nil => exact ⟨[], [], rfl, by rw [columnBytes]; rfl, by simp [column]⟩
  | cons c line ih =>
    rw [columnBytes, encode_cons]
    rcases encodeChar_cases c with ⟨hwidth, hunits, hhigh, -⟩ | ⟨hwidth, high, low, hunits, hhigh,
      hlow, -⟩
    · cases character with
      | zero => exact ⟨[], c :: line, rfl, if_neg (by omega), column_zero _⟩
      | succ n =>
        obtain ⟨p, x, rfl, hbytes, hcolumn⟩ := ih n
        refine ⟨c :: p, x, rfl, ?_, ?_⟩
        · rw [if_pos (by omega), hwidth, Nat.add_sub_cancel, hbytes]
          rfl
        · rw [hunits, List.singleton_append, column_cons hhigh, hcolumn, encode_cons, hunits]
          rfl
    · rw [hunits, List.cons_append, List.singleton_append]
      rcases character with _ | _ | n
      · exact ⟨[], c :: line, rfl, if_neg (by omega), column_zero _⟩
      · exact ⟨[], c :: line, rfl, if_neg (by omega), column_inside hhigh hlow _⟩
      · obtain ⟨p, x, rfl, hbytes, hcolumn⟩ := ih n
        refine ⟨c :: p, x, rfl, ?_, ?_⟩
        · have hless : n + 1 + 1 - 2 = n := by omega
          rw [if_pos (by omega), hwidth, hless, hbytes]
          rfl
        · rw [column_pair hlow, hcolumn, encode_cons, hunits]
          simp only [List.cons_append, List.nil_append, List.length_cons]

/-! ### Lines -/

theorem isBreak_toNat (c : Char) : isBreak c.toNat = decide (c = '\r' ∨ c = '\n') := by
  have hreturn : c.toNat = 0x0d ↔ c = '\r' := Char.toNat_inj (d := '\r')
  have hfeed : c.toNat = 0x0a ↔ c = '\n' := Char.toNat_inj (d := '\n')
  simp only [isBreak, hreturn, hfeed]

theorem isBreak_of_mem {c : Char} (hc : ¬(c = '\r' ∨ c = '\n')) :
    ∀ u ∈ encodeChar c, isBreak u = false := by
  intro u hu
  rcases encodeChar_cases c with ⟨-, hunits, -⟩ | ⟨-, high, low, hunits, hhigh, hlow, -⟩
  · rw [hunits, List.mem_singleton] at hu
    rw [hu, isBreak_toNat, decide_eq_false hc]
  · simp only [isHigh, isLow, decide_eq_true_eq] at hhigh hlow
    simp only [hunits, List.mem_cons, List.not_mem_nil, or_false] at hu
    simp only [isBreak, decide_eq_false_iff_not]
    omega

/-- The content of the first line, in units. -/
theorem takeWhile_encode (text : List Char) :
    (encode text).takeWhile (fun u => !isBreak u) = encode (content text) := by
  induction text with
  | nil => rfl
  | cons c text ih =>
    by_cases hc : c = '\r' ∨ c = '\n'
    · have hcontent : content (c :: text) = [] := by rcases hc with rfl | rfl <;> rfl
      have hunits : encodeChar c = [c.toNat] := by rcases hc with rfl | rfl <;> rfl
      have hbreak : isBreak c.toNat = true := by rw [isBreak_toNat, decide_eq_true hc]
      rw [hcontent, encode_cons, hunits, List.singleton_append,
        List.takeWhile_cons_of_neg (by simp [hbreak]), encode_nil]
    · have hplain : ∀ u ∈ encodeChar c, (!isBreak u) = true := by
        intro u hu
        rw [isBreak_of_mem hc u hu, Bool.not_false]
      rw [Position.content_cons hc, encode_cons, encode_cons, List.takeWhile_append_of_pos hplain,
        ih]

theorem content_headD_lines (text : List Char) :
    content ((lines text).headD []) = content text := by
  induction text using lineInduction with
  | nil => rfl
  | crlf rest ih => rfl
  | stop c rest hc hp ih =>
    rw [Position.lines_stop hc hp, List.headD_cons]
    rcases hc with rfl | rfl <;> rfl
  | plain c rest hc ih =>
    rw [Position.lines_plain hc, Position.content_cons hc, ← ih]
    cases lines rest with
    | nil => exact Position.content_cons hc []
    | cons l more => exact Position.content_cons hc l

/-- On the first line a place is a column of its content. -/
theorem offsetIn_first (text : List Char) (character : Nat) :
    offsetIn 0 character (lines text) = columnBytes character (content text) := by
  rw [← content_headD_lines]
  cases lines text with
  | nil => rw [offsetIn, List.headD_nil, content, List.takeWhile_nil, columnBytes]
  | cons l more => rfl

theorem length_afterLine? {units rest : List Nat} (h : afterLine? units = some rest) :
    rest.length < units.length := by
  fun_induction afterLine? units with
  | case1 => cases h
  | case2 u more hcrlf =>
    obtain rfl := Option.some.inj h
    simp only [List.length_tail, List.length_cons]
    omega
  | case3 u more hcrlf hbreak =>
    obtain rfl := Option.some.inj h
    exact Nat.lt_succ_self _
  | case4 u more hcrlf hbreak ih =>
    have := ih h
    rw [List.length_cons]
    omega

/-- Units that end no line move the places on later lines as a whole. -/
theorem place_append {us : List Nat} (h : ∀ u ∈ us, isBreak u = false) (units : List Nat)
    (line character : Nat) :
    place (line + 1) character (us ++ units) = us.length + place (line + 1) character units := by
  have hafter : afterLine? (us ++ units) = afterLine? units := by
    induction us with
    | nil => rfl
    | cons u us ih =>
      have hu : isBreak u = false := h u (List.mem_cons_self ..)
      have hcrlf : ¬(u = 0x0d ∧ (us ++ units).head? = some 0x0a) := by
        rintro ⟨rfl, -⟩
        cases hu
      rw [List.cons_append, afterLine?, if_neg hcrlf, hu, if_neg Bool.false_ne_true,
        ih fun v hv => h v (List.mem_cons_of_mem _ hv)]
  rw [place, place, hafter, List.length_append]
  cases hrest : afterLine? units with
  | none => rfl
  | some rest =>
    have hlength := length_afterLine? hrest
    simp only
    omega

theorem place_crlf (units : List Nat) (line character : Nat) :
    place (line + 1) character (0x0d :: 0x0a :: units) = 2 + place line character units := by
  rw [place, afterLine?, if_pos ⟨rfl, rfl⟩]
  simp only [List.tail_cons, List.length_cons]
  omega

theorem place_break {u : Nat} (hu : isBreak u = true) {units : List Nat}
    (h : u = 0x0d → units.head? ≠ some 0x0a) (line character : Nat) :
    place (line + 1) character (u :: units) = 1 + place line character units := by
  rw [place, afterLine?, if_neg (fun hcrlf => h hcrlf.1 hcrlf.2), hu, if_pos rfl]
  simp only [List.length_cons]
  omega

/-- The units of a text start with a line feed only if the text does. -/
theorem head?_encode {text : List Char} (h : text.head? ≠ some '\n') :
    (encode text).head? ≠ some 0x0a := by
  cases text with
  | nil => exact fun hhead => nomatch hhead
  | cons c text =>
    have hc : c ≠ '\n' := fun hc => h (by rw [hc]; rfl)
    rw [encode_cons]
    rcases encodeChar_cases c with ⟨-, hunits, -⟩ | ⟨-, high, low, hunits, hhigh, -⟩
    · rw [hunits]
      intro hhead
      exact hc (Char.toNat_inj.mp (Option.some.inj hhead))
    · rw [hunits]
      intro hhead
      obtain rfl : high = 0x0a := Option.some.inj hhead
      cases hhigh

theorem exists_split_first (text : List Char) (character : Nat) :
    ∃ p x, text = p ++ x ∧ offsetIn 0 character (lines text) = byteLength p ∧
      place 0 character (encode text) = (encode p).length := by
  obtain ⟨p, x, hline, hbytes, hcolumn⟩ := exists_split_column (content text) character
  refine ⟨p, x ++ text.dropWhile fun c => c ≠ '\r' ∧ c ≠ '\n', ?_, ?_, ?_⟩
  · rw [← List.append_assoc, ← hline, content, List.takeWhile_append_dropWhile]
  · rw [offsetIn_first, hbytes]
  · rw [place, takeWhile_encode, hcolumn]

/-- A place cuts off the same characters of a text in bytes and in units. -/
theorem exists_split (text : List Char) (line character : Nat) :
    ∃ p x, text = p ++ x ∧ offsetIn line character (lines text) = byteLength p ∧
      place line character (encode text) = (encode p).length := by
  -- A line end uses up one line, any other character none.
  induction text using lineInduction generalizing line with
  | nil =>
    cases line with
    | zero => exact exists_split_first [] character
    | succ n => exact ⟨[], [], rfl, rfl, rfl⟩
  | crlf rest ih =>
    cases line with
    | zero => exact exists_split_first _ character
    | succ n =>
      obtain ⟨p, x, rfl, hbytes, hplace⟩ := ih n
      refine ⟨'\r' :: '\n' :: p, x, rfl, ?_, ?_⟩
      · rw [lines, offsetIn, hbytes, Position.byteLength_crlf, Position.byteLength_crlf,
          Position.byteLength_nil, Nat.add_zero]
      · have hunits : ∀ t, encode ('\r' :: '\n' :: t) = 0x0d :: 0x0a :: encode t := fun t => rfl
        rw [hunits, hunits, place_crlf, hplace, List.length_cons, List.length_cons]
        omega
  | stop c rest hc hp ih =>
    cases line with
    | zero => exact exists_split_first _ character
    | succ n =>
      obtain ⟨p, x, rfl, hbytes, hplace⟩ := ih n
      have hunits : encodeChar c = [c.toNat] := by rcases hc with rfl | rfl <;> rfl
      have hbreak : isBreak c.toNat = true := by rw [isBreak_toNat, decide_eq_true hc]
      have hhead : c.toNat = 0x0d → (encode (p ++ x)).head? ≠ some 0x0a := by
        intro hreturn
        exact head?_encode (hp (Char.toNat_inj.mp hreturn))
      refine ⟨c :: p, x, rfl, ?_, ?_⟩
      · rw [Position.lines_stop hc hp, offsetIn, hbytes, Position.byteLength_stop hc,
          Position.byteLength_stop hc]
        rfl
      · rw [encode_cons, encode_cons, hunits, List.singleton_append, place_break hbreak hhead,
          hplace, List.singleton_append, List.length_cons]
        omega
  | plain c rest hc ih =>
    cases line with
    | zero => exact exists_split_first _ character
    | succ n =>
      obtain ⟨p, x, rfl, hbytes, hplace⟩ := ih (n + 1)
      refine ⟨c :: p, x, rfl, ?_, ?_⟩
      · rw [Position.offsetIn_plain_line hc, hbytes, Position.byteLength_cons]
      · rw [encode_cons, place_append (isBreak_of_mem hc), hplace, encode_cons, List.length_append]

end RenameServer.Utf16
