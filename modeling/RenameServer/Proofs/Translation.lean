import RenameServer.Proofs.CodeUnits
import RenameServer.Proofs.LineEndTokens

/-!
Texts as they are read from a file, with line feeds for all line ends. The bytes
of such a text are the translated ones. A position leads to offsets that belong
together in both texts, and the two ends of a token have the same positions in
both, since a position counts line ends and does not tell them apart.
-/
namespace RenameServer.LineEnd

open Utf8 (Bytes encodeChars)
open Document (unixLines)
open Position Lexeme

theorem unixLines_stop {c : Char} {rest : List Char} (hc : c = '\r' ∨ c = '\n')
    (h : c = '\r' → rest.head? ≠ some '\n') : unixLines (c :: rest) = '\n' :: unixLines rest := by
  rw [Document.unixLines.eq_3 c rest fun more hr hrest => h hr (by rw [hrest]; rfl)]
  rcases hc with rfl | rfl <;> rfl

theorem unixLines_plain {c : Char} (hc : ¬(c = '\r' ∨ c = '\n')) (rest : List Char) :
    unixLines (c :: rest) = c :: unixLines rest := by
  rw [Document.unixLines.eq_3 c rest fun more hr _ => hc (.inl hr), if_neg fun hr => hc (.inl hr)]

/-- The bytes of a character that ends no line. -/
theorem noBreak_encodeChar {c : Char} (hc : ¬(c = '\r' ∨ c = '\n')) :
    NoBreak (String.utf8EncodeChar c) :=
  LineIndex.encodeChar_plain hc

/-- The byte of a line end of one character. -/
theorem exists_stop {c : Char} {rest : List Char} (hc : c = '\r' ∨ c = '\n')
    (h : c = '\r' → rest.head? ≠ some '\n') :
    ∃ b, encodeChars (c :: rest) = b :: encodeChars rest ∧ ¬ Dropped b (encodeChars rest) ∧
      written b = lineFeed := by
  rcases hc with rfl | rfl
  · refine ⟨carriageReturn, rfl, ?_, rfl⟩
    rintro ⟨-, hhead⟩
    obtain ⟨more, hmore⟩ := List.head?_eq_some_iff.mp hhead
    exact LineIndex.encodeChars_ne_feed (h rfl) more hmore
  · exact ⟨lineFeed, rfl, not_dropped_of_ne (by decide), rfl⟩

/-- A text is translated as its bytes are. -/
theorem encodeChars_unixLines (text : List Char) :
    encodeChars (unixLines text) = unix (encodeChars text) := by
  induction text using lineInduction with
  | nil => rfl
  | crlf rest ih =>
    have hd : Dropped 0x0d (0x0a :: encodeChars rest) := ⟨rfl, rfl⟩
    rw [unixLines, LineIndex.encodeChars_feed, LineIndex.encodeChars_return,
      LineIndex.encodeChars_feed, unix_dropped hd, unix_of_ne (by decide), ih]
  | stop c rest hc hp ih =>
    obtain ⟨b, hbytes, hd, hwritten⟩ := exists_stop hc hp
    rw [unixLines_stop hc hp, LineIndex.encodeChars_feed, ih, hbytes, unix_written hd, hwritten]
    rfl
  | plain c rest hc ih =>
    have hbreak := noBreak_encodeChar hc
    rw [unixLines_plain hc, Utf8.encodeChars_cons, Utf8.encodeChars_cons,
      unix_append (hbreak.whole_left _), hbreak.unix_eq, ih]

theorem byteLength_unixLines (text : List Char) :
    byteLength (unixLines text) = (unix (encodeChars text)).length := by
  rw [byteLength_eq, encodeChars_unixLines]

/-! ### From positions to offsets -/

theorem content_unixLines (text : List Char) : content (unixLines text) = content text := by
  induction text using lineInduction with
  | nil => rfl
  | crlf rest ih => rfl
  | stop c rest hc hp ih =>
    rw [unixLines_stop hc hp]
    rcases hc with rfl | rfl <;> rfl
  | plain c rest hc ih => rw [unixLines_plain hc, content_cons hc, content_cons hc, ih]

theorem noBreak_content (text : List Char) : NoBreak (encodeChars (content text)) := by
  intro b hb
  obtain ⟨c, hc, hbyte⟩ := List.mem_flatMap.mp hb
  have hplain := List.all_eq_true.mp List.all_takeWhile c hc
  exact noBreak_encodeChar (by simpa using hplain) b hbyte

/-- On the first line there is no difference at all. -/
theorem offsetIn_first_place (text : List Char) (character : Nat) :
    place (encodeChars text) (offsetIn 0 character (lines (unixLines text))) =
      offsetIn 0 character (lines text) := by
  rw [Utf16.offsetIn_first, Utf16.offsetIn_first, content_unixLines]
  have hbreak := noBreak_content text
  have hsplit : encodeChars text = encodeChars (content text) ++
      encodeChars (text.dropWhile fun c => c ≠ '\r' ∧ c ≠ '\n') := by
    rw [← Utf8.encodeChars_append, content, List.takeWhile_append_dropWhile]
  have hle := columnBytes_le character (content text)
  rw [byteLength_eq] at hle
  rw [hsplit, place_append_left (hbreak.whole_left _) (by rwa [hbreak.unix_eq]), hbreak.place_eq]

/-- The offset of a position in the translated text stands for its offset in the text. -/
theorem offsetIn_place (text : List Char) (line character : Nat) :
    place (encodeChars text) (offsetIn line character (lines (unixLines text))) =
      offsetIn line character (lines text) := by
  have hfeed : ∀ t, lines ('\n' :: t) = ['\n'] :: lines t := fun t => lines_stop (.inr rfl) nofun
  have hbreak : ∀ {c : Char}, c = '\r' ∨ c = '\n' → ∀ n ls,
      offsetIn (n + 1) character ([c] :: ls) = 1 + offsetIn n character ls := by
    intro c hc n ls
    rw [offsetIn, byteLength_stop hc, byteLength_nil]
  induction text using lineInduction generalizing line with
  | nil => cases line <;> exact place_zero []
  | crlf rest ih =>
    cases line with
    | zero => exact offsetIn_first_place _ character
    | succ n =>
      have hd : Dropped 0x0d (0x0a :: encodeChars rest) := ⟨rfl, rfl⟩
      have hd' : ¬ Dropped 0x0a (encodeChars rest) := not_dropped_of_ne (by decide)
      rw [unixLines, hfeed, hbreak (.inr rfl), lines, offsetIn, byteLength_crlf, byteLength_nil,
        LineIndex.encodeChars_return, LineIndex.encodeChars_feed, Nat.add_comm 1, place_dropped hd,
        place_written hd', ih n]
      omega
  | stop c rest hc hp ih =>
    cases line with
    | zero => exact offsetIn_first_place _ character
    | succ n =>
      obtain ⟨b, hbytes, hd, -⟩ := exists_stop hc hp
      rw [unixLines_stop hc hp, hfeed, hbreak (.inr rfl), lines_stop hc hp, hbreak hc, hbytes,
        Nat.add_comm 1, place_written hd, ih n]
      omega
  | plain c rest hc ih =>
    cases line with
    | zero => exact offsetIn_first_place _ character
    | succ n =>
      have hbreak := noBreak_encodeChar hc
      have hright := place_append_right (hbreak.whole_left (encodeChars rest))
        (offsetIn (n + 1) character (lines (unixLines rest)))
      rw [hbreak.unix_eq, String.length_utf8EncodeChar, ih (n + 1)] at hright
      rw [unixLines_plain hc, offsetIn_plain_line hc, offsetIn_plain_line hc, Utf8.encodeChars_cons,
        hright]

/-! ### From offsets to positions -/

theorem spot_unixLines (text : List Char) : spot (unixLines text) = spot text := by
  induction text using lineInduction with
  | nil => rfl
  | crlf rest ih => rw [unixLines, spot_stop (.inr rfl) nofun, spot, ih]
  | stop c rest hc hp ih =>
    rw [unixLines_stop hc hp, spot_stop (.inr rfl) nofun, spot_stop hc hp, ih]
  | plain c rest hc ih => rw [unixLines_plain hc, spot_plain hc, spot_plain hc, ih]

theorem unixLines_append {p x : List Char} (h : NoSplit p x) :
    unixLines (p ++ x) = unixLines p ++ unixLines x := by
  induction p using lineInduction with
  | nil => rfl
  | crlf p ih =>
    rw [List.cons_append, List.cons_append, unixLines, unixLines, ih h.of_cons.of_cons,
      List.cons_append]
  | stop c p hc hp ih =>
    rw [List.cons_append, unixLines_stop hc (h.head hp), unixLines_stop hc hp, ih h.of_cons,
      List.cons_append]
  | plain c p hc ih =>
    rw [List.cons_append, unixLines_plain hc, unixLines_plain hc, ih h.of_cons, List.cons_append]

/-- No carriage return is left. -/
theorem ne_return_of_mem_unixLines (text : List Char) : ∀ c ∈ unixLines text, c ≠ '\r' := by
  induction text using lineInduction with
  | nil => exact List.forall_mem_nil _
  | crlf rest ih =>
    rw [unixLines]
    exact List.forall_mem_cons.mpr ⟨by decide, ih⟩
  | stop c rest hc hp ih =>
    rw [unixLines_stop hc hp]
    exact List.forall_mem_cons.mpr ⟨by decide, ih⟩
  | plain c rest hc ih =>
    rw [unixLines_plain hc]
    exact List.forall_mem_cons.mpr ⟨fun hr => hc (.inl hr), ih⟩

theorem noSplit_unixLines (p x : List Char) : NoSplit (unixLines p) x :=
  fun hlast => absurd rfl (ne_return_of_mem_unixLines p _ (List.mem_of_getLast? hlast))

theorem whole_of_noSplit {p x : List Char} (h : NoSplit p x) :
    Whole (encodeChars p) (encodeChars x) := by
  intro hlast hhead
  obtain ⟨more, hmore⟩ := List.head?_eq_some_iff.mp hhead
  refine LineIndex.encodeChars_ne_feed (h ?_) more hmore
  rcases List.eq_nil_or_concat p with rfl | ⟨q, c, rfl⟩
  · cases hlast
  · obtain ⟨b, tail, hchar, -⟩ := Utf8.encodeChar_tail c
    have hne : String.utf8EncodeChar c ≠ [] := by
      rw [hchar]
      exact List.cons_ne_nil b tail
    have hbytes : encodeChars (q.concat c) = encodeChars q ++ String.utf8EncodeChar c := by
      simp
    rw [hbytes, List.getLast?_append, List.getLast?_eq_some_getLast hne] at hlast
    have hmem := List.getLast_mem hne
    rw [Option.some.inj hlast] at hmem
    have hc : c = '\r' := Utf8.mem_encodeChar_ascii (d := '\r') (by decide) hmem
    rw [hc, List.concat_eq_append, List.getLast?_concat]

/-- A cut of the text is a cut of the translated text. -/
theorem place_cut {p x : List Char} (h : NoSplit p x) :
    place (encodeChars (p ++ x)) (byteLength (unixLines p)) = byteLength p := by
  have hright := place_append_right (whole_of_noSplit h) 0
  rw [place_zero, Nat.add_zero, Nat.add_zero] at hright
  rw [Utf8.encodeChars_append, byteLength_unixLines, byteLength_eq, hright]

/-- The positions of a range whose ends cut a text. -/
theorem range_of_cuts {text p x q y : List Char} (hstart : text = p ++ x) (hstop : text = q ++ y)
    (hp : NoSplit p x) (hq : NoSplit q y) {r : ByteRange} (hrstart : r.start = byteLength p)
    (hrstop : r.stop = byteLength q) :
    (LineIndex.ofText (String.ofList text)).range r =
      ⟨⟨(spot p).1, (spot p).2⟩, ⟨(spot q).1, (spot q).2⟩⟩ := by
  have hcut : ∀ {a b : List Char}, text = a ++ b → NoSplit a b →
      (LineIndex.ofText (String.ofList text)).locate
        (min (byteLength a) (LineIndex.ofText (String.ofList text)).bytes.length) =
        ⟨(spot a).1, (spot a).2⟩ := by
    intro a b htext hab
    have hmin : min (byteLength a) (byteLength text) = byteLength a := by
      rw [htext, byteLength_append]
      omega
    rw [LineIndex.bytes_ofText, ← byteLength_eq, hmin, htext, LineIndex.locate_spot hab]
  rw [LineIndex.range, hrstart, hrstop, hcut hstart hp, hcut hstop hq]

/-- A name has the same positions in both texts. -/
theorem range_place {text : List Char} {t : Token} (ht : t ∈ Token.scan (unix (encodeChars text)))
    (hkind : t.kind ≠ .punct) :
    (LineIndex.ofText (String.ofList text)).range (move (place (encodeChars text)) t).range =
      (LineIndex.ofText (String.ofList (unixLines text))).range t.range := by
  have hmoved : move (place (encodeChars text)) t ∈ Token.scan (encodeChars text) := by
    rw [scan_unix (encodeChars text)]
    exact List.mem_map_of_mem ht
  obtain ⟨p, v, x, hplaced⟩ := Applying.exists_placed hmoved hkind ""
  have htext := hplaced.text_eq
  have hstart := hplaced.noSplit_start x
  have hstop := hplaced.noSplit_stop x
  have hinjective := (place_strictMono (encodeChars text)).injective
  have htstart : t.start = byteLength (unixLines p) := by
    apply hinjective
    have hcut := place_cut hstart
    rw [← htext] at hcut
    rw [hcut, hplaced.start_eq]
    rfl
  have htstop : t.stop = byteLength (unixLines (p ++ v)) := by
    apply hinjective
    have hcut := place_cut hstop
    rw [List.append_assoc, ← htext] at hcut
    rw [hcut, hplaced.stop_eq, place_stop ht]
    rfl
  have htranslated : unixLines text = unixLines p ++ unixLines (v ++ x) := by
    rw [htext, unixLines_append hstart]
  have htranslated' : unixLines text = unixLines (p ++ v) ++ unixLines x := by
    rw [htext, ← List.append_assoc, unixLines_append hstop]
  rw [range_of_cuts htext (htext.trans (List.append_assoc ..).symm) hstart hstop
      hplaced.start_eq.symm hplaced.stop_eq.symm,
    range_of_cuts htranslated htranslated' (noSplit_unixLines p _) (noSplit_unixLines _ _) htstart
      htstop, spot_unixLines, spot_unixLines]

end RenameServer.LineEnd
