import RenameServer.Proofs.Encoding
import RenameServer.Proofs.Respelling
import RenameServer.Source.Name
import RenameServer.Source.Scope

/-!
Scopes under new spellings. A variable and a name that is not reserved mean
nothing to the scan for scopes, apart from where a captured variable stands.
When only such tokens get a new spelling, and of the same kind, the scan finds
the same bodies and the same captures, each at its new place.
-/
namespace RenameServer.Scopes

open Utf8 (Bytes)
open Lexeme Respelling

/-- The character of an ASCII byte. -/
def asciiChar (b : UInt8) : Char := Char.ofNat b.toNat

theorem toNat_asciiChar : ∀ n < 0x80, (Char.ofNat n).toNat = n := by
  decide

theorem encodeChars_asciiChar {bytes : Bytes} (h : ∀ b ∈ bytes, b < 0x80) :
    Utf8.encodeChars (bytes.map asciiChar) = bytes := by
  induction bytes with
  | nil => rfl
  | cons b rest ih =>
    have hb : b.toNat < 0x80 := UInt8.lt_iff_toNat_lt.mp (h b (List.mem_cons_self ..))
    have hchar : (asciiChar b).toNat = b.toNat := toNat_asciiChar b.toNat hb
    rw [List.map_cons, Utf8.encodeChars_cons, ih fun c hc => h c (List.mem_cons_of_mem _ hc),
      Utf8.encodeChar_ascii (hchar ▸ hb), hchar]
    simp

theorem lossy_ascii {bytes : Bytes} (h : ∀ b ∈ bytes, b < 0x80) :
    Utf8.lossy bytes = String.ofList (bytes.map asciiChar) := by
  conv => lhs; rw [← encodeChars_asciiChar h]
  rw [Utf8.lossy, Utf8.decodeLossy_encodeChars]

/-- ASCII letters have the same lower case as bytes and as characters. -/
theorem lowerChar_asciiChar : ∀ n < 0x80,
    [Name.lowerChar (asciiChar (UInt8.ofNat n))] =
      (Token.lowerBytes [UInt8.ofNat n]).map asciiChar := by
  decide

theorem reservedWords_ascii : ∀ w ∈ Name.reservedWords,
    (∀ b ∈ Utf8.encode w, b < 0x80) ∧ (Utf8.encode w).map asciiChar = w.toList := by
  have hall : (Name.reservedWords.all fun w => (Utf8.encode w).all (· < 0x80) &&
      decide ((Utf8.encode w).map asciiChar = w.toList)) = true := by decide +kernel
  simpa only [List.all_eq_true, Bool.and_eq_true, decide_eq_true_eq] using hall

/-- Lower case makes no ASCII byte out of another one. -/
theorem ascii_of_lowerBytes {bytes : Bytes} (h : ∀ b ∈ Token.lowerBytes bytes, b < 0x80) :
    ∀ b ∈ bytes, b < 0x80 := by
  intro b hb
  have hlower := h _ (List.mem_map_of_mem hb)
  by_cases hupper : 0x41 ≤ b ∧ b ≤ 0x5a
  · exact UInt8.lt_of_le_of_lt hupper.2 (by decide)
  · rwa [if_neg hupper] at hlower

theorem map_lowerChar {bytes : Bytes} (h : ∀ b ∈ bytes, b < 0x80) :
    (bytes.map asciiChar).map Name.lowerChar = (Token.lowerBytes bytes).map asciiChar := by
  induction bytes with
  | nil => rfl
  | cons b rest ih =>
    have hb : b.toNat < 0x80 := UInt8.lt_iff_toNat_lt.mp (h b (List.mem_cons_self ..))
    have hlower := lowerChar_asciiChar b.toNat hb
    rw [UInt8.ofNat_toNat] at hlower
    have hrest := ih fun c hc => h c (List.mem_cons_of_mem _ hc)
    simp only [Token.lowerBytes, List.map_cons, List.map_nil, List.cons.injEq, and_true] at *
    exact ⟨hlower, hrest⟩

/-- A name that is not reserved is no reserved word in any case of its letters. -/
theorem lowerBytes_ne_of_not_reserved {bytes : Bytes} {w : String} (hw : w ∈ Name.reservedWords)
    (h : Name.isReserved (Utf8.lossy bytes) = false) : Token.lowerBytes bytes ≠ Utf8.encode w := by
  intro hlower
  obtain ⟨hascii, hchars⟩ := reservedWords_ascii w hw
  have hbytes := ascii_of_lowerBytes (hlower ▸ hascii)
  have hword : Name.isReserved (Utf8.lossy bytes) = true := by
    rw [Name.isReserved, lossy_ascii hbytes, String.toList_ofList, map_lowerChar hbytes, hlower,
      hchars, String.ofList_toList]
    exact List.contains_iff_mem.mpr hw
  rw [h] at hword
  cases hword

/-- Bytes that are no word of a declaration, in any case of its letters. -/
def NoWord (bytes : Bytes) : Prop :=
  Token.lowerBytes bytes ∉ scopeWords ∧ Token.lowerBytes bytes ≠ useWord

theorem noWord_of_not_reserved {bytes : Bytes}
    (h : Name.isReserved (Utf8.lossy bytes) = false) : NoWord bytes := by
  refine ⟨?_, lowerBytes_ne_of_not_reserved (by decide) h⟩
  simp only [scopeWords, functionWord, List.mem_cons, List.not_mem_nil, or_false, not_or]
  refine ⟨?_, ?_, ?_, ?_, ?_⟩ <;> exact lowerBytes_ne_of_not_reserved (by decide) h

/-- The marks that the scan reads. -/
def marks : List Bytes := memberMarks ++ [[semicolon], [openBrace], [closeBrace]]

/-- No mark begins like a variable or a name. -/
theorem marks_head : ∀ m ∈ marks, ∀ b ∈ m.head?, b ≠ dollar ∧ isNameStart b = false := by
  have hall : (marks.all fun m => m.head?.all fun b => b ≠ dollar && !isNameStart b) = true := by
    decide
  simpa [List.all_eq_true, Option.all_eq_true] using hall

/-- A token that the scan only takes note of as a variable. -/
structure Inert (t : Token) : Prop where
  no_mark : t.value ∉ marks
  no_word : t.kind = .identifier → NoWord t.value

/-- A variable or a name is no mark. -/
theorem not_mem_marks_of_spelled {t : Token} (hkind : t.kind ≠ .punct)
    (h : Spelled t.kind t.value) : t.value ∉ marks := by
  intro hmark
  have hhead := marks_head t.value hmark
  cases hk : t.kind with
  | «variable» =>
    rw [hk] at h
    obtain ⟨name, hvalue, -⟩ := h
    rw [hvalue] at hhead
    exact (hhead dollar rfl).1 rfl
  | identifier =>
    rw [hk] at h
    obtain ⟨b, rest, hvalue, hb, -⟩ := h
    rw [hvalue] at hhead
    rw [(hhead b rfl).2] at hb
    cases hb
  | punct => exact hkind hk

theorem inert_of_spelled {t : Token} (hkind : t.kind ≠ .punct) (h : Spelled t.kind t.value)
    (hword : t.kind = .identifier → NoWord t.value) : Inert t :=
  ⟨not_mem_marks_of_spelled hkind h, hword⟩

/-- A span at its new place. -/
def moved (place : Nat → Nat) (s : Span) : Span :=
  ⟨place s.start.toNat, place s.stop.toNat⟩

/-- Scopes at their new places. -/
def image (place : Nat → Nat) (scopes : Scopes) : Scopes :=
  ⟨scopes.spans.map (moved place),
    scopes.captures.map fun c => (place c.1, moved place c.2)⟩

/-- A scan of which the tokens got new spellings and places. -/
def Scan.image (spell : Token → Option String) (place : Nat → Nat) (s : Scan) : Scan where
  pending :=
    { s.pending with
      keyword := s.pending.keyword.map place
      used := s.pending.used.map (respell spell place) }
  opened := s.opened.map fun o => (o.1.map place, o.2.map (respell spell place))
  found := s.found.image place
  member := s.member

variable {spell : Token → Option String} {place : Nat → Nat}

theorem Scan.image_close (s : Scan) (stop : Nat) :
    (s.close stop).image spell place = (s.image spell place).close (place stop) := by
  obtain ⟨pending, opened, found, member⟩ := s
  cases opened with
  | nil => rfl
  | cons o outer =>
    obtain ⟨keyword, used⟩ := o
    cases keyword with
    | none => rfl
    | some start =>
      simp only [Scan.close, Scan.image, Scopes.image, List.map_cons, List.map_append, List.map_map,
        Option.map_some, List.map_nil]
      rfl

/-- A token moves with its end, and what the scan reads of it stays. -/
structure Carried (spell : Token → Option String) (place : Nat → Nat) (t : Token) : Prop where
  stop : (respell spell place t).stop = place t.stop
  value : value spell t = t.value ∨ Inert t ∧ Inert (respell spell place t)

theorem Scan.declare_of_inert {t : Token} (h : Inert t) (s : Scan) :
    s.declare t =
      if t.kind = .variable ∧ s.pending.inUse then
        { s with pending := { s.pending with used := s.pending.used ++ [t] } }
      else s := by
  have hmark := h.no_mark
  simp only [marks, memberMarks, List.mem_append, List.mem_cons, List.not_mem_nil, or_false,
    not_or] at hmark
  obtain ⟨-, hsemicolon, hopen, hclose⟩ := hmark
  rw [Scan.declare, if_neg fun hc => (h.no_word hc.1).1 hc.2,
    if_neg fun hc => (h.no_word hc.1).2 hc.2.2, if_neg hsemicolon, if_neg hopen, if_neg hclose]

theorem Scan.image_function (s : Scan) :
    (s.image spell place).pending.function = s.pending.function := rfl

theorem Scan.image_inUse (s : Scan) :
    (s.image spell place).pending.inUse = s.pending.inUse := rfl

theorem respell_kind (t : Token) : (respell spell place t).kind = t.kind := rfl

/-- A variable in a `use` clause is noted at its new place. -/
theorem Scan.image_note (s : Scan) (t : Token) :
    Scan.image spell place
        { s with pending := { s.pending with used := s.pending.used ++ [t] } } =
      { s.image spell place with
        pending :=
          { (s.image spell place).pending with
            used := (s.image spell place).pending.used ++ [respell spell place t] } } := by
  simp only [Scan.image, List.map_append, List.map_cons, List.map_nil]

theorem Scan.image_declare {t : Token} (h : Carried spell place t) (s : Scan) :
    (s.declare t).image spell place = (s.image spell place).declare (respell spell place t) := by
  rcases h.value with hvalue | ⟨hinert, hinert'⟩
  · have hread : (respell spell place t).value = t.value := hvalue
    rw [Scan.declare, Scan.declare, hread, respell_kind, h.stop, image_function, image_inUse]
    split_ifs
    · rfl
    · rfl
    · exact image_note s t
    · rfl
    · rfl
    · exact image_close s t.stop
    · rfl
  · rw [declare_of_inert hinert, declare_of_inert hinert', respell_kind, image_inUse]
    split_ifs
    · exact image_note s t
    · rfl

theorem Scan.image_step {t : Token} (h : Carried spell place t) (s : Scan) :
    (s.step t).image spell place = (s.image spell place).step (respell spell place t) := by
  have hmember : (respell spell place t).value ∈ memberMarks ↔ t.value ∈ memberMarks := by
    rcases h.value with hvalue | ⟨hinert, hinert'⟩
    · have hread : (respell spell place t).value = t.value := hvalue
      rw [hread]
    · exact iff_of_false (fun hm => hinert'.no_mark (List.mem_append_left _ hm))
        (fun hm => hinert.no_mark (List.mem_append_left _ hm))
  have hdeclare := image_declare h s
  have hsame : (s.image spell place).member = s.member := rfl
  simp only [Scan.step, hmember, respell_kind, hsame]
  split_ifs
  · rfl
  · rw [← hdeclare]
    rfl

theorem Scan.image_foldl {tokens : List Token} (h : ∀ t ∈ tokens, Carried spell place t)
    (s : Scan) :
    (tokens.foldl Scan.step s).image spell place =
      (tokens.map (respell spell place)).foldl Scan.step (s.image spell place) := by
  induction tokens generalizing s with
  | nil => rfl
  | cons t rest ih =>
    rw [List.map_cons, List.foldl_cons, List.foldl_cons, ← image_step (h t (List.mem_cons_self ..)),
      ih fun u hu => h u (List.mem_cons_of_mem _ hu)]

/-- The scopes of respelled tokens are the scopes of the tokens, at their new places. -/
theorem ofTokens_respell {tokens : List Token} (h : ∀ t ∈ tokens, Carried spell place t) :
    ofTokens (tokens.map (respell spell place)) = (ofTokens tokens).image place :=
  (congrArg Scan.found (Scan.image_foldl h Scan.initial)).symm

end RenameServer.Scopes
