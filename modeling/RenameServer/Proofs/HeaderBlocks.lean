import Mathlib.Data.List.Basic
import RenameServer.Proofs.Reading

/-!
Headers that say nothing about the length do not disturb the framing. A block of
header lines may hold any number of them, in any order and with any text, with or
without colons; the one line that states the length is found among them, and the body
behind the blank line is taken as long as stated. What can go wrong is that a line is
longer than a reader allows.
-/
namespace RenameServer

open Utf8 (Bytes)

namespace Text

variable {blank : Char → Bool}

/-- A text is what is left of it when it is stripped, with blanks on both sides. -/
theorem exists_strip (blank : Char → Bool) (text : List Char) :
    ∃ before after, text = before ++ (strip blank text ++ after) ∧
      (∀ c ∈ before, blank c = true) ∧ ∀ c ∈ after, blank c = true := by
  let tail := text.dropWhile blank
  refine ⟨text.takeWhile blank, (tail.reverse.takeWhile blank).reverse, ?_,
    fun c hc => List.mem_takeWhile_imp hc,
    fun c hc => List.mem_takeWhile_imp (List.mem_reverse.mp hc)⟩
  have htail : strip blank text ++ (tail.reverse.takeWhile blank).reverse = tail := by
    unfold strip
    rw [← List.reverse_append, List.takeWhile_append_dropWhile, List.reverse_reverse]
  rw [htail]
  exact List.takeWhile_append_dropWhile.symm

theorem strip_of_blank {text : List Char} (h : ∀ c ∈ text, blank c = true) :
    strip blank text = [] := by
  unfold strip
  rw [List.dropWhile_eq_nil_iff.mpr h]
  rfl

theorem strip_append_blank {after : List Char} (h : ∀ c ∈ after, blank c = true)
    (text : List Char) : strip blank (text ++ after) = strip blank text := by
  have hreverse : ∀ c ∈ after.reverse, blank c = true := fun c hc => h c (List.mem_reverse.mp hc)
  unfold strip
  rw [List.dropWhile_append]
  split
  · next hempty =>
    rw [List.isEmpty_iff.mp hempty, List.dropWhile_eq_nil_iff.mpr h]
  · rw [List.reverse_append, List.dropWhile_append_of_pos hreverse]

end Text

namespace Frame

open Text (isHeaderBlank strip lowerAscii)

/-! ### Keys and values -/

/-- A header is split at its first colon. -/
theorem header?_append {key : List Char} (h : ':' ∉ key) (value : List Char) :
    header? (key ++ ':' :: value) =
      some (String.ofList ((strip isHeaderBlank key).map lowerAscii),
        String.ofList (strip isHeaderBlank value)) := by
  have hkey : ∀ c ∈ key, decide (c ≠ ':') = true := by
    intro c hc
    exact decide_eq_true fun heq => h (heq ▸ hc)
  unfold header?
  rw [List.dropWhile_append_of_pos hkey, List.takeWhile_append_of_pos hkey,
    List.dropWhile_cons_of_neg (by decide), List.takeWhile_cons_of_neg (by decide),
    List.append_nil]

theorem exists_of_header? {line : List Char} {key value : String}
    (h : header? line = some (key, value)) :
    ∃ k v, line = k ++ ':' :: v ∧ ':' ∉ k ∧
      key = String.ofList ((strip isHeaderBlank k).map lowerAscii) := by
  have hsplit := List.takeWhile_append_dropWhile (p := (· ≠ ':')) (l := line)
  have hcolon : ':' ∉ line.takeWhile (· ≠ ':') := by
    intro hmem
    have := List.mem_takeWhile_imp hmem
    simp at this
  unfold header? at h
  split at h
  · cases h
  · next c v hdrop =>
    have hc : c = ':' := by
      have hhead := List.head?_dropWhile_not (fun x : Char => decide (x ≠ ':')) line
      rw [hdrop] at hhead
      simpa using hhead
    rw [hdrop, hc] at hsplit
    obtain ⟨hkey, -⟩ := Prod.mk.inj (Option.some.inj h)
    exact ⟨_, v, hsplit.symm, hcolon, hkey.symm⟩

/-- A header line that is not blank: ASCII text without a line feed, and whether it is
ended by CRLF or by LF alone. -/
structure HeaderLine where
  text : List Char
  crlf : Bool
  ascii : ∀ c ∈ text, c.toNat < 0x80
  noFeed : '\n' ∉ text
  nonblank : ∃ c ∈ text, isHeaderBlank c = false

namespace HeaderLine

/-- The characters before the line feed. -/
def chars (l : HeaderLine) : List Char := l.text ++ if l.crlf then ['\r'] else []

def bytes (l : HeaderLine) : Bytes := l.chars.map byte ++ [lineFeed]

/-- The line gives a value to a key. Blanks may stand around both; what comes before the
first colon is the key. -/
def Gives (l : HeaderLine) (key value : List Char) : Prop :=
  ∃ a b c d, l.text = (a ++ (key ++ b)) ++ ':' :: (c ++ (value ++ d)) ∧
    ':' ∉ a ++ (key ++ b) ∧ ∀ x ∈ (a ++ b) ++ (c ++ d), isHeaderBlank x = true

/-- A key is compared without regard to the case of its letters. -/
def IsLengthKey (key : List Char) : Prop := key.map lowerAscii = "content-length".toList

instance (key : List Char) : Decidable (IsLengthKey key) :=
  inferInstanceAs (Decidable (key.map lowerAscii = "content-length".toList))

/-- The line is about the length, whatever it says. -/
def AboutLength (l : HeaderLine) : Prop := ∃ key value, l.Gives key value ∧ IsLengthKey key

/-- The line states a length. -/
def States (l : HeaderLine) (n : Nat) : Prop :=
  ∃ key, l.Gives key (Nat.toDigits 10 n) ∧ IsLengthKey key

theorem ascii_chars (l : HeaderLine) : ∀ c ∈ l.chars, c.toNat < 0x80 := by
  intro c hc
  rcases List.mem_append.mp hc with h | h
  · exact l.ascii c h
  · split at h
    · rw [List.mem_singleton.mp h]
      decide
    · cases h

theorem noFeed_chars (l : HeaderLine) : '\n' ∉ l.chars := by
  intro hc
  rcases List.mem_append.mp hc with h | h
  · exact l.noFeed h
  · split at h
    · exact absurd (List.mem_singleton.mp h) (by decide)
    · cases h

theorem strip_chars (l : HeaderLine) :
    strip isHeaderBlank l.chars = strip isHeaderBlank l.text := by
  refine Text.strip_append_blank ?_ l.text
  split
  · exact List.forall_mem_singleton.mpr (by decide)
  · exact List.forall_mem_nil _

theorem strip_ne_nil (l : HeaderLine) : strip isHeaderBlank l.text ≠ [] := by
  intro hnil
  obtain ⟨before, after, htext, hbefore, hafter⟩ := Text.exists_strip isHeaderBlank l.text
  obtain ⟨c, hc, hblank⟩ := l.nonblank
  rw [hnil, List.nil_append] at htext
  rw [htext] at hc
  have hall : isHeaderBlank c = true := (List.mem_append.mp hc).elim (hbefore c) (hafter c)
  rw [hblank] at hall
  cases hall

/-! ### What a line says about the length -/

theorem not_blank_of_lowerAscii {c : Char} (h : isHeaderBlank (lowerAscii c) = false) :
    ¬ isHeaderBlank c = true := by
  intro hblank
  have hsmall : c.toNat ≤ 0x20 := by
    simp only [isHeaderBlank, decide_eq_true_eq] at hblank
    omega
  have hletter : ¬('A' ≤ c ∧ c ≤ 'Z') := by
    rintro ⟨hle, -⟩
    have : 65 ≤ c.toNat := by simpa [Char.le_def, UInt32.le_iff_toNat_le] using hle
    omega
  unfold lowerAscii at h
  rw [if_neg hletter, hblank] at h
  cases h

theorem IsLengthKey.ne_nil {key : List Char} (h : IsLengthKey key) : key ≠ [] := by
  rintro rfl
  exact absurd h (by decide)

theorem IsLengthKey.head {key : List Char} (h : IsLengthKey key) :
    ∀ c ∈ key.head?, ¬ isHeaderBlank c = true := by
  intro c hc
  have hhead := congrArg List.head? h
  rw [List.head?_map, hc] at hhead
  refine not_blank_of_lowerAscii ?_
  rw [Option.some.inj hhead]
  decide

theorem IsLengthKey.last {key : List Char} (h : IsLengthKey key) :
    ∀ c ∈ key.getLast?, ¬ isHeaderBlank c = true := by
  intro c hc
  have hlast := congrArg List.getLast? h
  rw [List.getLast?_map, hc] at hlast
  refine not_blank_of_lowerAscii ?_
  rw [Option.some.inj hlast]
  decide

/-- The key of a line about the length stands before its first colon. -/
theorem AboutLength.isLengthKey {l : HeaderLine} (h : l.AboutLength) :
    IsLengthKey (strip isHeaderBlank (l.text.takeWhile (· ≠ ':'))) := by
  obtain ⟨key, value, ⟨a, b, c, d, htext, hcolon, hblank⟩, hkey⟩ := h
  have hfirst : l.text.takeWhile (· ≠ ':') = a ++ (key ++ b) := by
    have hbefore : ∀ x ∈ a ++ (key ++ b), decide (x ≠ ':') = true := by
      intro x hx
      exact decide_eq_true fun heq => hcolon (heq ▸ hx)
    rw [htext, List.takeWhile_append_of_pos hbefore, List.takeWhile_cons_of_neg (by decide),
      List.append_nil]
  have ha : ∀ x ∈ a, isHeaderBlank x = true := fun x hx => hblank x (by simp [hx])
  have hb : ∀ x ∈ b, isHeaderBlank x = true := fun x hx => hblank x (by simp [hx])
  rwa [hfirst, Text.strip_append hkey.ne_nil ha hb hkey.head hkey.last]

/-- The length that a line states is the length that is known behind it. -/
theorem lengthAfter_of_states {l : HeaderLine} {n : Nat} (h : l.States n) (known : Option String) :
    lengthAfter known (strip isHeaderBlank l.text) = some (String.ofList (Nat.toDigits 10 n)) := by
  obtain ⟨key, ⟨a, b, c, d, htext, hcolon, hblank⟩, hkey⟩ := h
  simp only [List.mem_append, or_imp, forall_and] at hblank
  obtain ⟨⟨ha, hb⟩, hc, hd⟩ := hblank
  have hdigit : ∀ x ∈ Nat.toDigits 10 n, ¬ isHeaderBlank x = true := fun x hx =>
    not_blank_of_isDigit (Integer.isDigit_of_mem hx)
  have hhead : ∀ x ∈ (Nat.toDigits 10 n).head?, ¬ isHeaderBlank x = true := fun x hx =>
    hdigit x (List.mem_of_head? hx)
  have hlast : ∀ x ∈ (Nat.toDigits 10 n).getLast?, ¬ isHeaderBlank x = true := fun x hx =>
    hdigit x (List.mem_of_getLast? hx)
  -- the line is stripped, and then its key and its value are
  have hline : strip isHeaderBlank l.text = (key ++ b) ++ ':' :: (c ++ Nat.toDigits 10 n) := by
    have hsplit : l.text = a ++ (((key ++ b) ++ ':' :: (c ++ Nat.toDigits 10 n)) ++ d) := by
      simp only [htext, List.append_assoc, List.cons_append]
    rw [hsplit]
    refine Text.strip_append (by simp) ha hd ?_ ?_
    · rw [List.append_assoc, List.head?_append_of_ne_nil _ hkey.ne_nil]
      exact hkey.head
    · rw [List.getLast?_append_of_ne_nil _ (by simp), ← List.cons_append,
        List.getLast?_append_of_ne_nil _ Nat.toDigits_ne_nil]
      exact hlast
  have hstrippedKey : strip isHeaderBlank (key ++ b) = key :=
    @Text.strip_append isHeaderBlank [] key b hkey.ne_nil (List.forall_mem_nil _) hb hkey.head
      hkey.last
  have hstrippedValue : strip isHeaderBlank (c ++ Nat.toDigits 10 n) = Nat.toDigits 10 n := by
    have hstrip := @Text.strip_append isHeaderBlank c (Nat.toDigits 10 n) [] Nat.toDigits_ne_nil hc
      (List.forall_mem_nil _) hhead hlast
    rwa [List.append_nil] at hstrip
  have hfirst : ':' ∉ key ++ b := fun hmem => hcolon (List.mem_append_right a hmem)
  rw [hline, lengthAfter, header?_append hfirst, hstrippedKey, hstrippedValue, hkey]
  rfl

theorem aboutLength_of_header? {l : HeaderLine} {value : String}
    (h : header? (strip isHeaderBlank l.text) = some ("content-length", value)) :
    l.AboutLength := by
  obtain ⟨k, v, hline, hcolon, hkey⟩ := exists_of_header? h
  obtain ⟨a, a', htext, ha, ha'⟩ := Text.exists_strip isHeaderBlank l.text
  obtain ⟨b, b', hk, hb, hb'⟩ := Text.exists_strip isHeaderBlank k
  obtain ⟨c, c', hv, hc, hc'⟩ := Text.exists_strip isHeaderBlank v
  refine ⟨strip isHeaderBlank k, strip isHeaderBlank v,
    ⟨a ++ b, b', c, c' ++ a', ?_, ?_, ?_⟩, ?_⟩
  · calc l.text
        = a ++ ((k ++ ':' :: v) ++ a') := by rw [← hline, ← htext]
      _ = (a ++ k) ++ ':' :: (v ++ a') := by simp only [List.append_assoc, List.cons_append]
      _ = _ := by
        nth_rewrite 1 [hk, hv]
        simp only [List.append_assoc]
  · rw [List.append_assoc, ← hk]
    intro hmem
    rcases List.mem_append.mp hmem with hmem | hmem
    · exact absurd (ha ':' hmem) (by decide)
    · exact hcolon hmem
  · simp only [List.mem_append, or_imp, forall_and]
    exact ⟨⟨⟨ha, hb⟩, hb'⟩, hc, hc', ha'⟩
  · unfold IsLengthKey
    rw [hkey, String.toList_ofList]

/-- A line that is not about the length leaves it as it is known. -/
theorem lengthAfter_of_other {l : HeaderLine} (h : ¬ l.AboutLength) (known : Option String) :
    lengthAfter known (strip isHeaderBlank l.text) = known := by
  unfold lengthAfter
  split
  · next key value hheader =>
    split
    · next hkey =>
      rw [hkey] at hheader
      exact absurd (aboutLength_of_header? hheader) h
    · rfl
  · rfl

end HeaderLine

/-! ### Reading lines -/

theorem readHeaders_longLine {bytes rest : Bytes} {b : UInt8}
    (hrest : bytes.dropWhile (· ≠ lineFeed) = b :: rest)
    (hlimit : lineLimit < (bytes.takeWhile (· ≠ lineFeed)).length) (closed : Bool)
    (known : Option String) :
    readHeaders closed known bytes = .fault (.longLine true) rest := by
  rw [readHeaders]
  split
  · next hnone => cases hrest.symm.trans hnone
  · next hsome =>
    obtain ⟨rfl, rfl⟩ := List.cons.inj (hrest.symm.trans hsome)
    exact if_pos hlimit

/-- A line of ASCII text that is ended by a line feed. -/
theorem readHeaders_of_ascii {cs : List Char} (h : ∀ c ∈ cs, c.toNat < 0x80) (hfeed : '\n' ∉ cs)
    (closed : Bool) (known : Option String) (rest : Bytes) :
    readHeaders closed known (cs.map byte ++ lineFeed :: rest) =
      if lineLimit < cs.length then .fault (.longLine true) rest
      else if strip isHeaderBlank cs = [] then .complete known rest
      else readHeaders closed (lengthAfter known (strip isHeaderBlank cs)) rest := by
  obtain ⟨hline, hrest⟩ := line_of_ascii h hfeed rest
  have hlength :
      ((cs.map byte ++ lineFeed :: rest).takeWhile (· ≠ lineFeed)).length = cs.length := by
    rw [hline, List.length_map]
  split
  · next hlimit => exact readHeaders_longLine hrest (hlength ▸ hlimit) closed known
  · next hlimit =>
    have htext := asciiText_map_byte h
    exact readHeaders_line hrest (hlength ▸ hlimit) (by rw [hline, htext]) closed known

/-- One header line: it is too long, or its length counts. -/
theorem readHeaders_headerLine (l : HeaderLine) (closed : Bool) (known : Option String)
    (rest : Bytes) :
    readHeaders closed known (l.bytes ++ rest) =
      if lineLimit < l.chars.length then .fault (.longLine true) rest
      else readHeaders closed (lengthAfter known (strip isHeaderBlank l.text)) rest := by
  have hbytes : l.bytes ++ rest = l.chars.map byte ++ lineFeed :: rest := by
    simp [HeaderLine.bytes]
  rw [hbytes, readHeaders_of_ascii l.ascii_chars l.noFeed_chars, l.strip_chars,
    if_neg l.strip_ne_nil]

/-- What is known about the length behind header lines. -/
def lengthBehind (known : Option String) (lines : List HeaderLine) : Option String :=
  lines.foldl (fun before l => lengthAfter before (strip isHeaderBlank l.text)) known

theorem readHeaders_lines {lines : List HeaderLine} (h : ∀ l ∈ lines, l.chars.length ≤ lineLimit)
    (closed : Bool) (known : Option String) (rest : Bytes) :
    readHeaders closed known (lines.flatMap HeaderLine.bytes ++ rest) =
      readHeaders closed (lengthBehind known lines) rest := by
  induction lines generalizing known with
  | nil => rfl
  | cons l lines ih =>
    obtain ⟨hl, hlines⟩ := List.forall_mem_cons.mp h
    rw [List.flatMap_cons, List.append_assoc, readHeaders_headerLine,
      if_neg (Nat.not_lt.mpr hl), ih hlines]
    rfl

/-- The first line that is too long ends the reading. -/
theorem readHeaders_long {lines : List HeaderLine} (h : ∃ l ∈ lines, lineLimit < l.chars.length)
    (closed : Bool) (known : Option String) (rest : Bytes) :
    ∃ left, readHeaders closed known (lines.flatMap HeaderLine.bytes ++ rest) =
      .fault (.longLine true) left := by
  induction lines generalizing known with
  | nil =>
    obtain ⟨l, hl, -⟩ := h
    cases hl
  | cons l lines ih =>
    rw [List.flatMap_cons, List.append_assoc, readHeaders_headerLine]
    split
    · exact ⟨_, rfl⟩
    · next hshort =>
      refine ih ?_ _
      obtain ⟨l', hl', hlong⟩ := h
      rcases List.mem_cons.mp hl' with rfl | hl'
      · exact absurd hlong hshort
      · exact ⟨l', hl', hlong⟩

theorem lengthBehind_of_others {lines : List HeaderLine} (h : ∀ l ∈ lines, ¬ l.AboutLength)
    (known : Option String) : lengthBehind known lines = known := by
  induction lines generalizing known with
  | nil => rfl
  | cons l lines ih =>
    obtain ⟨hl, hlines⟩ := List.forall_mem_cons.mp h
    have hstep : lengthBehind known (l :: lines) =
        lengthBehind (lengthAfter known (strip isHeaderBlank l.text)) lines := rfl
    rw [hstep, HeaderLine.lengthAfter_of_other hl, ih hlines]

/-! ### Reading blocks -/

/-- Header lines and a blank one. Exactly one of the lines is about the length, and it
states a length. -/
structure HeaderBlock (n : Nat) where
  before : List HeaderLine
  line : HeaderLine
  after : List HeaderLine
  blank : List Char
  states : line.States n
  others : ∀ l ∈ before ++ after, ¬ l.AboutLength
  blank_blank : ∀ c ∈ blank, isHeaderBlank c = true
  blank_noFeed : '\n' ∉ blank

namespace HeaderBlock

variable {n : Nat}

def lines (b : HeaderBlock n) : List HeaderLine := b.before ++ b.line :: b.after

def bytes (b : HeaderBlock n) : Bytes :=
  b.lines.flatMap HeaderLine.bytes ++ (b.blank.map byte ++ [lineFeed])

/-- No line is longer than a reader allows. -/
def Short (b : HeaderBlock n) : Prop :=
  (∀ l ∈ b.lines, l.chars.length ≤ lineLimit) ∧ b.blank.length ≤ lineLimit

theorem lengthBehind_lines (b : HeaderBlock n) (known : Option String) :
    lengthBehind known b.lines = some (String.ofList (Nat.toDigits 10 n)) := by
  have hafter : ∀ l ∈ b.after, ¬ l.AboutLength := fun l hl =>
    b.others l (List.mem_append_right _ hl)
  have hsplit : lengthBehind known b.lines =
      lengthBehind (lengthAfter (lengthBehind known b.before)
        (strip isHeaderBlank b.line.text)) b.after := by
    unfold lengthBehind lines
    rw [List.foldl_append, List.foldl_cons]
  rw [hsplit, HeaderLine.lengthAfter_of_states b.states, lengthBehind_of_others hafter]

theorem ascii_blank (b : HeaderBlock n) : ∀ c ∈ b.blank, c.toNat < 0x80 := by
  intro c hc
  have hblank := b.blank_blank c hc
  simp only [isHeaderBlank, decide_eq_true_eq] at hblank
  omega

theorem bytes_append (b : HeaderBlock n) (rest : Bytes) :
    b.bytes ++ rest =
      b.lines.flatMap HeaderLine.bytes ++ (b.blank.map byte ++ lineFeed :: rest) := by
  simp [bytes]

theorem readHeaders_blank (b : HeaderBlock n) (closed : Bool) (known : Option String)
    (rest : Bytes) :
    readHeaders closed known (b.blank.map byte ++ lineFeed :: rest) =
      if lineLimit < b.blank.length then .fault (.longLine true) rest
      else .complete known rest := by
  rw [readHeaders_of_ascii b.ascii_blank b.blank_noFeed,
    if_pos (Text.strip_of_blank b.blank_blank)]

theorem readHeaders_block {b : HeaderBlock n} (h : b.Short) (closed : Bool) (known : Option String)
    (rest : Bytes) :
    readHeaders closed known (b.bytes ++ rest) =
      .complete (some (String.ofList (Nat.toDigits 10 n))) rest := by
  rw [bytes_append, readHeaders_lines h.1, readHeaders_blank, if_neg (Nat.not_lt.mpr h.2),
    lengthBehind_lines]

theorem readHeaders_block_long {b : HeaderBlock n} (h : ¬ b.Short) (closed : Bool)
    (known : Option String) (rest : Bytes) :
    ∃ left, readHeaders closed known (b.bytes ++ rest) = .fault (.longLine true) left := by
  rw [bytes_append]
  by_cases hlines : ∀ l ∈ b.lines, l.chars.length ≤ lineLimit
  · have hblank : lineLimit < b.blank.length := Nat.lt_of_not_le fun hle => h ⟨hlines, hle⟩
    rw [readHeaders_lines hlines, readHeaders_blank, if_pos hblank]
    exact ⟨rest, rfl⟩
  · refine readHeaders_long ?_ closed known _
    simpa using hlines

end HeaderBlock

/-- A body of the length that was stated is taken as a whole, and nothing behind it. -/
theorem readBody_encode (depth : Nat) (closed : Bool) (text : String) (rest : Bytes) :
    readBody depth closed (Utf8.encode text).length (Utf8.encode text ++ rest) =
      match Json.ofText depth text with
      | .ok value => .message value rest
      | .error refused => .fault (.refusedJson refused) rest := by
  have hparse : parseBody depth (Utf8.encode text) =
      match Json.ofText depth text with
      | .ok value => .ok value
      | .error refused => .error (.refusedJson refused) := by
    unfold parseBody
    rw [Utf8.decode_encode]
    dsimp only
    cases Json.ofText depth text <;> rfl
  unfold readBody
  rw [if_neg (by omega), if_neg (by rw [List.length_append]; omega), Int.toNat_natCast,
    List.take_left, List.drop_left, hparse]
  cases Json.ofText depth text <;> rfl

/-- Behind a block without long lines the body is read, if its length is no number that
is too long. -/
theorem read_block {text : String} {b : HeaderBlock (Utf8.encode text).length} (h : b.Short)
    {depth : Nat} (closed : Bool) (rest : Bytes) {value : Json} :
    read depth closed (b.bytes ++ (Utf8.encode text ++ rest)) = .message value rest ↔
      (Nat.toDigits 10 (Utf8.encode text).length).length ≤ Integer.digitLimit ∧
        Json.ofText depth text = .ok value := by
  have hne : String.ofList (Nat.toDigits 10 (Utf8.encode text).length) ≠ "" := by
    intro hempty
    have hlist := congrArg String.toList hempty
    rw [String.toList_ofList] at hlist
    exact Nat.toDigits_ne_nil hlist
  unfold read
  rw [HeaderBlock.readHeaders_block h]
  simp only [if_neg hne, Integer.ofText_toDigits_eq]
  split
  · next refusal hrefused =>
    split at hrefused
    · next hlong =>
      refine ⟨fun heq => ?_, fun hread => absurd hlong (Nat.not_lt.mpr hread.1)⟩
      cases heq
    · cases hrefused
  · next length hlength =>
    split at hlength
    · cases hlength
    · next hshort =>
      obtain rfl := Except.ok.inj hlength
      rw [readBody_encode]
      cases hread : Json.ofText depth text with
      | ok found => simp [Nat.not_lt.mp hshort]
      | error refused => simp

/-- Behind a block with a long line nothing is read. -/
theorem read_block_long {n : Nat} {b : HeaderBlock n} (h : ¬ b.Short) (depth : Nat) (closed : Bool)
    (rest : Bytes) :
    ∃ left, read depth closed (b.bytes ++ rest) = .fault (.longLine true) left := by
  obtain ⟨left, hfault⟩ := HeaderBlock.readHeaders_block_long h closed none rest
  refine ⟨left, ?_⟩
  unfold read
  rw [hfault]

/-- A block of headers and a body behind it are read as the value of the body, whatever
the other headers are, and what follows the body is left. That is so if and only if
no line is too long for a reader, the length is not too long for a number, and the
body is a text of the value; what is written for a value is one, within the limits on
nesting and integers. -/
theorem read_among_headers {text : String} (b : HeaderBlock (Utf8.encode text).length)
    (value : Json) (depth : Nat) (closed : Bool) (rest : Bytes) :
    (read depth closed (b.bytes ++ (Utf8.encode text ++ rest)) = .message value rest ↔
      b.Short ∧ (Utf8.encode text).length < 10 ^ Integer.digitLimit ∧
        Json.ofText depth text = .ok value) ∧
    (value.Plain → value.Within depth → .plain text = value.compact →
      Json.ofText depth text = .ok value) := by
  refine ⟨?_, fun hplain hwithin htext => ?_⟩
  swap
  · obtain rfl := Str.plain.inj (htext.trans hplain.whole.compact)
    exact Json.ofText_chars hwithin hplain
  rw [← Nat.length_toDigits_le_iff (b := 10) (by decide) (by decide)]
  by_cases hshort : b.Short
  · rw [read_block hshort]
    exact ⟨fun h => ⟨hshort, h⟩, fun h => h.2⟩
  · obtain ⟨left, hfault⟩ := read_block_long hshort depth closed (Utf8.encode text ++ rest)
    refine ⟨fun h => ?_, fun h => absurd h.1 hshort⟩
    cases hfault.symm.trans h

/-- A line from a text that is checked character by character. -/
def HeaderLine.ofText (text : String) (crlf : Bool)
    (hplain : text.toList.all (fun c => c.toNat < 0x80 ∧ c ≠ '\n') = true)
    (hmark : text.toList.any (fun c => isHeaderBlank c = false) = true) : HeaderLine where
  text := text.toList
  crlf := crlf
  ascii := fun c hc => (of_decide_eq_true (List.all_eq_true.mp hplain c hc)).1
  noFeed := fun hc => (of_decide_eq_true (List.all_eq_true.mp hplain _ hc)).2 rfl
  nonblank := by
    obtain ⟨c, hc, hblank⟩ := List.any_eq_true.mp hmark
    exact ⟨c, hc, of_decide_eq_true hblank⟩

/-- Lines without a colon, with two, and with a key that only ends like the one that
counts; the length in other letters and among blanks, and a blank line that is not
empty. -/
def mixedBlock : HeaderBlock (Utf8.encode "null").length where
  before := [.ofText "no colon" false (by decide) (by decide),
    .ofText ": a:b" true (by decide) (by decide)]
  line := .ofText "\tCONTENT-length : 4 " false (by decide) (by decide)
  after := [.ofText "X-Content-Length: 9" true (by decide) (by decide)]
  blank := [' ', '\r']
  states := ⟨"CONTENT-length".toList,
    ⟨['\t'], [' '], [' '], [' '], by decide, by decide, List.all_eq_true.mp (by decide)⟩, by decide⟩
  others := by
    simp only [List.cons_append, List.nil_append, List.forall_mem_cons]
    refine ⟨?_, ?_, ?_, List.forall_mem_nil _⟩ <;>
      exact fun h => absurd h.isLengthKey (by decide)
  blank_blank := List.all_eq_true.mp (by decide)
  blank_noFeed := by decide

theorem read_among_headers_mixed :
    mixedBlock.Short ∧ Json.ofText 5 "null" = .ok .null ∧
      read 5 false (mixedBlock.bytes ++ (Utf8.encode "null" ++ Utf8.encode "x")) =
        .message .null (Utf8.encode "x") := by
  have hshort : mixedBlock.Short := by
    refine ⟨?_, by decide⟩
    change ∀ l ∈ [_, _, _, _], _
    simp only [List.forall_mem_cons]
    refine ⟨?_, ?_, ?_, ?_, List.forall_mem_nil _⟩ <;> decide
  have hlength : (Utf8.encode "null").length < 10 ^ Integer.digitLimit :=
    Nat.lt_of_lt_of_le (show _ < 10 ^ 1 by decide) (Nat.pow_le_pow_right (by decide) (by decide))
  exact ⟨hshort, rfl,
    (read_among_headers mixedBlock .null 5 false _).1.mpr ⟨hshort, hlength, rfl⟩⟩

/-- A line of letters. -/
def HeaderLine.ofLetters (n : Nat) : HeaderLine where
  text := List.replicate (n + 1) 'x'
  crlf := true
  ascii := fun c hc => by rw [List.eq_of_mem_replicate hc]; decide
  noFeed := fun hc => absurd (List.eq_of_mem_replicate hc) (by decide)
  nonblank := ⟨'x', List.mem_replicate.mpr ⟨by omega, rfl⟩, by decide⟩

theorem HeaderLine.not_aboutLength_ofLetters (n : Nat) : ¬ (ofLetters n).AboutLength := by
  rintro ⟨key, value, ⟨a, b, c, d, htext, -, -⟩, -⟩
  have hcolon : ':' ∈ (ofLetters n).text := by
    rw [htext]
    simp
  exact absurd (List.eq_of_mem_replicate hcolon) (by decide)

theorem HeaderLine.length_chars_ofLetters (n : Nat) : (ofLetters n).chars.length = n + 2 := by
  simp [chars, ofLetters]

/-- A line of 65537 letters, and then the length. -/
def longBlock : HeaderBlock (Utf8.encode "null").length where
  before := [.ofLetters 65536]
  line := .ofText "Content-Length: 4" true (by decide) (by decide)
  after := []
  blank := ['\r']
  states := ⟨"Content-Length".toList,
    ⟨[], [], [' '], [], by decide, by decide, List.all_eq_true.mp (by decide)⟩, by decide⟩
  others := List.forall_mem_singleton.mpr (HeaderLine.not_aboutLength_ofLetters _)
  blank_blank := List.all_eq_true.mp (by decide)
  blank_noFeed := by decide

/-- Behind a line that is too long no value is read. -/
theorem read_longBlock :
    (∀ depth, Json.ofText depth "null" = .ok .null) ∧ ∀ depth closed rest,
      read depth closed (longBlock.bytes ++ (Utf8.encode "null" ++ rest)) ≠
        .message .null rest := by
  refine ⟨fun _ => rfl, fun depth closed rest h => ?_⟩
  have hlong : ¬ longBlock.Short := by
    intro hshort
    have hline := hshort.1 (.ofLetters 65536) (List.mem_cons_self ..)
    rw [HeaderLine.length_chars_ofLetters] at hline
    exact absurd hline (by decide)
  obtain ⟨left, hfault⟩ := read_block_long hlong depth closed (Utf8.encode "null" ++ rest)
  cases hfault.symm.trans h

end Frame

end RenameServer
