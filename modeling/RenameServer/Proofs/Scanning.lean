import Mathlib.Data.List.DropRight
import RenameServer.Proofs.CodeUnits
import RenameServer.Proofs.Lookups

/-!
Positions by a plain scan. The text up to an offset is decoded, its line ends are
made LF, and line and column are counted at its end. Every query on a text is
answered by such a scan, at each offset, whatever was asked before.
-/
namespace RenameServer

open Utf8 (Bytes encodeChars)
open Position

namespace Utf8

/-- Decode and leave out what is malformed, as is a character that is cut off. -/
def decodeIgnoring : Bytes → List Char
  | [] => []
  | b :: rest =>
    let u := unit b rest
    match u.value with
    | .ok c => c :: decodeIgnoring (rest.drop u.extra)
    | .error _ => decodeIgnoring (rest.drop u.extra)
termination_by bytes => bytes.length
decreasing_by
  all_goals
    simp only [List.length_drop, List.length_cons]
    omega

/-- A character takes all the bytes that its first one promises. -/
theorem tail_ok {need : Nat} {low high : UInt8} {bits taken : Nat} {rest : Bytes} {c : Char}
    (h : (tail need low high bits taken rest).value = .ok c) :
    (tail need low high bits taken rest).extra = taken + need ∧ need ≤ rest.length := by
  induction need generalizing low high bits taken rest with
  | zero => exact ⟨rfl, Nat.zero_le _⟩
  | succ n ih =>
    cases rest with
    | nil => cases h
    | cons b rest =>
      rw [tail] at h ⊢
      split_ifs at h ⊢ with hb
      · obtain ⟨hextra, hlength⟩ := ih h
        rw [hextra, List.length_cons]
        omega

/-- The first bytes of a character are none. -/
theorem unit_cut {c : Char} {b : UInt8} {more : Bytes} (hchar : String.utf8EncodeChar c = b :: more)
    {k : Nat} (hk : k < more.length) : ∃ reason, (unit b (more.take k)).value = .error reason := by
  obtain ⟨b', more', hchar', hunit⟩ := unit_encodeChar c
  obtain ⟨rfl, rfl⟩ := List.cons.inj (hchar.symm.trans hchar')
  have hwhole := hunit []
  rw [List.append_nil, unit] at hwhole
  cases hlead : lead? b with
  | none =>
    rw [hlead] at hwhole
    cases congrArg Decoded.value hwhole
  | some l =>
    rw [hlead] at hwhole
    obtain ⟨hextra, -⟩ := tail_ok (congrArg Decoded.value hwhole)
    have hfollowing : more.length = 0 + l.following :=
      (congrArg Decoded.extra hwhole).symm.trans hextra
    simp only [unit, hlead]
    cases hcut : (tail l.following l.low l.high l.bits 0 (more.take k)).value with
    | error reason => exact ⟨reason, rfl⟩
    | ok c' =>
      have hlength := (tail_ok hcut).2
      rw [List.length_take] at hlength
      omega

theorem unit_continuation {b : UInt8} (h : IsContinuation b) (rest : Bytes) :
    unit b rest = ⟨0, .error .start⟩ := by
  have hlead : lead? b = none := by
    obtain ⟨hlow, hhigh⟩ := h
    rw [lead?, if_neg (UInt8.not_lt.mpr hlow), if_pos (UInt8.lt_trans hhigh (by decide))]
  rw [unit, hlead]

theorem decodeIgnoring_continuation {bytes : Bytes} (h : ∀ b ∈ bytes, IsContinuation b) :
    decodeIgnoring bytes = [] := by
  induction bytes with
  | nil => rw [decodeIgnoring]
  | cons b rest ih =>
    obtain ⟨hb, hrest⟩ := List.forall_mem_cons.mp h
    rw [decodeIgnoring]
    simp only [unit_continuation hb, List.drop_zero, ih hrest]

/-- Nothing is left of a character that is cut off. -/
theorem decodeIgnoring_cut {c : Char} {k : Nat} (h : k < c.utf8Size) :
    decodeIgnoring ((String.utf8EncodeChar c).take k) = [] := by
  obtain ⟨b, more, hchar, hmore⟩ := encodeChar_tail c
  rw [← String.length_utf8EncodeChar, hchar, List.length_cons] at h
  rw [hchar]
  cases k with
  | zero => rw [List.take_zero, decodeIgnoring]
  | succ k =>
    obtain ⟨reason, hcut⟩ := unit_cut hchar (k := k) (by omega)
    rw [List.take_succ_cons, decodeIgnoring]
    simp only [hcut]
    exact decodeIgnoring_continuation fun x hx =>
      hmore x (List.mem_of_mem_take (List.mem_of_mem_drop hx))

theorem decodeIgnoring_append (p : List Char) (rest : Bytes) :
    decodeIgnoring (encodeChars p ++ rest) = p ++ decodeIgnoring rest := by
  induction p with
  | nil => rfl
  | cons c p ih =>
    obtain ⟨b, more, hbytes, hunit⟩ := unit_encodeChar c
    rw [encodeChars_cons, hbytes, List.append_assoc, List.cons_append, decodeIgnoring]
    simp only [hunit, List.drop_left, ih, List.cons_append]

/-- The characters that are complete before an offset. -/
theorem decodeIgnoring_take (p : List Char) {x : List Char} {k : Nat} (h : Inside k x) :
    decodeIgnoring ((encodeChars (p ++ x)).take (byteLength p + k)) = p := by
  have hcut : decodeIgnoring ((encodeChars x).take k) = [] := by
    cases x with
    | nil => rw [encodeChars_nil, List.take_nil, decodeIgnoring]
    | cons c rest =>
      have hk : k < c.utf8Size := h
      rw [encodeChars_cons, List.take_append_of_le_length
        (by rw [String.length_utf8EncodeChar]; omega), decodeIgnoring_cut hk]
  rw [encodeChars_append, byteLength_eq, List.take_length_add_append, decodeIgnoring_append, hcut,
    List.append_nil]

end Utf8

/-- Each CRLF as an LF. -/
def Position.joinCrlf : List Char → List Char
  | [] => []
  | '\r' :: '\n' :: rest => '\n' :: joinCrlf rest
  | c :: rest => c :: joinCrlf rest

/-- All line ends as LF: first each CRLF, then each CR. -/
def Position.feeds (text : List Char) : List Char :=
  (joinCrlf text).map fun c => if c = '\r' then '\n' else c

/-- The line feeds of a text, and the code units after the last of them. -/
def Position.atEnd (text : List Char) : Position :=
  ⟨text.count '\n', (Utf16.encode (text.rtakeWhile fun c => c ≠ '\n')).length⟩

/-- The position of an offset by a scan of the text up to it. -/
def Position.scan (text : String) (offset : Nat) : Position :=
  atEnd (feeds (Utf8.decodeIgnoring ((Utf8.encode text).take offset)))

namespace Position

theorem feeds_crlf (rest : List Char) : feeds ('\r' :: '\n' :: rest) = '\n' :: feeds rest := rfl

theorem joinCrlf_cons {c : Char} {rest : List Char} (h : c = '\r' → rest.head? ≠ some '\n') :
    joinCrlf (c :: rest) = c :: joinCrlf rest :=
  joinCrlf.eq_3 c rest fun more hr hrest => h hr (by rw [hrest]; rfl)

theorem feeds_stop {c : Char} {rest : List Char} (hc : c = '\r' ∨ c = '\n')
    (h : c = '\r' → rest.head? ≠ some '\n') : feeds (c :: rest) = '\n' :: feeds rest := by
  rw [feeds, joinCrlf_cons h, List.map_cons]
  rcases hc with rfl | rfl <;> rfl

theorem feeds_plain {c : Char} (hc : ¬(c = '\r' ∨ c = '\n')) (rest : List Char) :
    feeds (c :: rest) = c :: feeds rest := by
  rw [feeds, joinCrlf_cons fun hr => absurd (.inl hr) hc, List.map_cons,
    if_neg fun hr => hc (.inl hr)]
  rfl

theorem length_encode_utf16 (text : List Char) : (Utf16.encode text).length = units text := by
  induction text with
  | nil => rfl
  | cons c rest ih =>
    have hwidth : (Utf16.encodeChar c).length = width c := by
      rw [Utf16.encodeChar, width]
      split_ifs <;> rfl
    rw [Utf16.encode_cons, List.length_append, hwidth, ih]
    rfl

/-- What stands in front of a list does not reach its end, unless all between does. -/
theorem rtakeWhile_cons {α : Type} {p : α → Bool} {a : α} {l : List α}
    (h : ¬∀ b ∈ a :: l, p b = true) : (a :: l).rtakeWhile p = l.rtakeWhile p := by
  induction l using List.reverseRecOn with
  | nil =>
    have ha : ¬p a = true := by simpa using h
    exact List.rtakeWhile_concat_neg p [] a ha
  | append_singleton l x ih =>
    rw [← List.cons_append, List.rtakeWhile_concat, List.rtakeWhile_concat]
    split_ifs with hx
    · rw [ih]
      intro hall
      apply h
      intro b hb
      rw [← List.cons_append, List.mem_append, List.mem_singleton] at hb
      rcases hb with hb | rfl
      · exact hall b hb
      · exact hx
    · rfl

theorem atEnd_feed (text : List Char) :
    atEnd ('\n' :: text) = ⟨(atEnd text).line + 1, (atEnd text).character⟩ := by
  rw [atEnd, rtakeWhile_cons (by simp), List.count_cons_self]
  rfl

/-- A character on the last line moves its end. -/
theorem atEnd_plain_last {c : Char} (hc : c ≠ '\n') {text : List Char} (h : '\n' ∉ text) :
    atEnd (c :: text) = ⟨(atEnd text).line, width c + (atEnd text).character⟩ := by
  have hwhole : ∀ {l : List Char}, '\n' ∉ l → l.rtakeWhile (fun c => c ≠ '\n') = l := by
    intro l hl
    rw [List.rtakeWhile_eq_self_iff]
    intro d hd
    exact decide_eq_true fun heq => hl (heq ▸ hd)
  have htext := hwhole h
  have hcons := hwhole (List.not_mem_cons_of_ne_of_not_mem hc.symm h)
  simp only [atEnd, htext, hcons, length_encode_utf16, List.count_cons_of_ne hc]
  rw [units, List.foldr_cons]
  push_cast
  rfl

theorem atEnd_plain_earlier {c : Char} (hc : c ≠ '\n') {text : List Char} (h : '\n' ∈ text) :
    atEnd (c :: text) = atEnd text := by
  rw [atEnd, rtakeWhile_cons, List.count_cons_of_ne hc]
  · rfl
  · intro hall
    simpa using hall '\n' (List.mem_cons_of_mem _ h)

/-- The scan ends where the text does. -/
theorem atEnd_feeds (text : List Char) : atEnd (feeds text) = ⟨(spot text).1, (spot text).2⟩ := by
  induction text using lineInduction with
  | nil => rfl
  | crlf rest ih => rw [feeds_crlf, atEnd_feed, ih, spot]; rfl
  | stop c rest hc hp ih => rw [feeds_stop hc hp, atEnd_feed, ih, spot_stop hc hp]; rfl
  | plain c rest hc ih =>
    have hfeed : c ≠ '\n' := fun h => hc (.inr h)
    have hcount : (feeds rest).count '\n' = (spot rest).1 :=
      Int.ofNat_inj.mp (congrArg Position.line ih)
    rw [feeds_plain hc, spot_plain hc]
    -- a character counts for the column only if no line ends behind it
    split_ifs with hline
    · have hnone : '\n' ∉ feeds rest := List.count_eq_zero.mp (hcount.trans hline)
      rw [atEnd_plain_last hfeed hnone, ih, hline]
      push_cast
      rfl
    · have hsome : '\n' ∈ feeds rest := by
        rw [← List.count_pos_iff, hcount]
        omega
      rw [atEnd_plain_earlier hfeed hsome, ih]

/-- A CR at the end of a text ends a line. -/
theorem spot_return (q : List Char) : spot (q ++ ['\r']) = ((spot q).1 + 1, 0) :=
  spot_append q ['\r'] fun _ h => absurd (Option.some.inj h) (by decide)

theorem byteLength_return (q : List Char) : byteLength (q ++ ['\r']) = byteLength q + 1 := by
  rw [byteLength_append]
  rfl

/-- The text before an offset, and the position at its end. -/
theorem exists_before (chars : List Char) {o : Nat} (ho : o ≤ byteLength chars) :
    ∃ p x k, chars = p ++ x ∧ Inside k x ∧ o = byteLength p + k ∧
      (LineIndex.ofText (String.ofList chars)).locate o = ⟨(spot p).1, (spot p).2⟩ := by
  rcases exists_place chars ho with ⟨q, y, rfl, rfl⟩ | ⟨p, x, k, rfl, hsplit, hk, rfl⟩
  · -- the CR is before the offset and the LF is not
    refine ⟨q ++ ['\r'], '\n' :: y, 0, by simp, inside_zero _, (byteLength_return q).symm, ?_⟩
    rw [LineIndex.locate_crlf, spot_return]
    rfl
  · exact ⟨p, x, k, rfl, hk, rfl, LineIndex.locate_inside hsplit hk⟩

end Position

/-- The line index gives the position that a scan finds. -/
theorem LineIndex.locate_scan (text : String) (o : Nat) :
    (LineIndex.ofText text).locate (min o (LineIndex.ofText text).bytes.length) =
      Position.scan text o := by
  obtain ⟨chars, rfl⟩ : ∃ chars, text = String.ofList chars := ⟨text.toList, by simp⟩
  have hbytes := LineIndex.bytes_ofText chars
  have htake : (encodeChars chars).take o =
      (encodeChars chars).take (min o (encodeChars chars).length) := by
    rw [List.take_eq_take_iff]
    omega
  rw [hbytes, Position.scan, Utf8.encode_ofList, htake, ← byteLength_eq]
  generalize hn : min o (byteLength chars) = n
  have hle : n ≤ byteLength chars := by omega
  clear hn htake hbytes
  obtain ⟨p, x, k, rfl, hk, rfl, hposition⟩ := exists_before chars hle
  rw [hposition, Utf8.decodeIgnoring_take p hk, atEnd_feeds]

namespace Lookup

theorem Sound.positions {text : String} {lookup : Lookup} (h : lookup.Sound text)
    (offsets : List Int) :
    lookup.positions offsets = offsets.map fun o =>
      if o < 0 then .error (.badOffset o) else .ok (Position.scan text o.toNat) := by
  induction offsets generalizing lookup with
  | nil => rfl
  | cons o rest ih =>
    rw [List.map_cons, Lookup.positions]
    split_ifs with ho
    · rw [Lookup.position, if_pos ho]
      exact congrArg _ (ih h)
    · obtain ⟨n, rfl⟩ := Int.eq_ofNat_of_zero_le (Int.not_lt.mp ho)
      obtain ⟨next, hnext, hsound⟩ := h.position n
      rw [LineIndex.locate_scan] at hnext
      rw [hnext]
      exact congrArg _ (ih hsound)

/-- Each of any number of queries on a text gets what a scan of the text up to
its offset finds; the whole text is scanned for an offset behind its end. -/
theorem positions_ofText (text : String) (offsets : List Int) :
    (ofText text).positions offsets = offsets.map fun o =>
      if o < 0 then .error (.badOffset o) else .ok (Position.scan text o.toNat) :=
  (sound_ofText text).positions offsets

example : ((ofText "a\r\né𝄞x").positions [9, 2, 4, -1, 99, 9]).map Except.toOption =
    [some ⟨1, 3⟩, some ⟨1, 0⟩, some ⟨1, 0⟩, none, some ⟨1, 4⟩, some ⟨1, 3⟩] := by
  decide +kernel

end Lookup

end RenameServer
