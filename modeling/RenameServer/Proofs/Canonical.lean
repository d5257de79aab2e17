import Mathlib.Order.Bounds.Basic
import RenameServer.Proofs.Scanning

/-!
Going to a position and back. An offset comes back unless it is inside a
character, whose start is read then, or between the CR and the LF of a line end,
whose end is read. A position comes back with its column moved to the last one
that its line has up to there, and a line past the end becomes the end of the
text. Whatever has been there and back once stays as it is.
-/
namespace RenameServer

/-! ### Where offsets can be -/

namespace Position

/-- A place between two characters, or at an end of the text. -/
def AtBoundary (text : List Char) (o : Nat) : Prop := ∃ p x, text = p ++ x ∧ byteLength p = o

/-- A place inside the character that starts at `start`. -/
def InsideChar (text : List Char) (start o : Nat) : Prop :=
  ∃ p c x, text = p ++ c :: x ∧ byteLength p = start ∧ start < o ∧ o < start + c.utf8Size

/-- A place between the CR and the LF of a line end. -/
def InsideCrlf (text : List Char) (o : Nat) : Prop :=
  ∃ p x, text = p ++ '\r' :: '\n' :: x ∧ byteLength p + 1 = o

variable {p x : List Char} {k : Nat}

/-- An offset is at the end of just one beginning of a text, or inside the character after it. -/
theorem place_unique {q y : List Char} {j : Nat} (h : p ++ x = q ++ y) (hk : Inside k x)
    (hj : Inside j y) (ho : byteLength p + k = byteLength q + j) : p = q ∧ k = j := by
  have hp := Utf8.decodeIgnoring_take p hk
  rw [h, ho, Utf8.decodeIgnoring_take q hj] at hp
  subst hp
  exact ⟨rfl, Nat.add_left_cancel ho⟩

theorem AtBoundary.eq_zero (hk : Inside k x) (h : AtBoundary (p ++ x) (byteLength p + k)) :
    k = 0 := by
  obtain ⟨q, y, htext, ho⟩ := h
  exact (place_unique htext hk (inside_zero y) (by omega)).2

theorem InsideChar.start_eq (hk : Inside k x) {start : Nat}
    (h : InsideChar (p ++ x) start (byteLength p + k)) : start = byteLength p ∧ 0 < k := by
  obtain ⟨q, c, y, htext, rfl, hlow, hhigh⟩ := h
  have hinside : Inside (byteLength p + k - byteLength q) (c :: y) := by
    simp only [Inside]
    omega
  obtain ⟨rfl, -⟩ := place_unique htext hk hinside (by omega)
  exact ⟨rfl, by omega⟩

theorem AtBoundary.not_insideChar {text : List Char} {start o : Nat} (h : AtBoundary text o) :
    ¬ InsideChar text start o := by
  obtain ⟨p, x, rfl, rfl⟩ := h
  intro hinside
  exact Nat.lt_irrefl 0 (InsideChar.start_eq (inside_zero x) hinside).2

theorem not_insideCrlf (hsplit : NoSplit p x) (hk : Inside k x) :
    ¬ InsideCrlf (p ++ x) (byteLength p + k) := by
  rintro ⟨q, y, htext, ho⟩
  have hcut : p ++ x = (q ++ ['\r']) ++ '\n' :: y := by
    rw [htext, List.append_assoc, List.singleton_append]
  have hlength := byteLength_return q
  obtain ⟨rfl, rfl⟩ := place_unique hcut hk (inside_zero _) (by omega)
  obtain rfl := List.append_cancel_left hcut
  exact hsplit (by simp) rfl

theorem insideChar_of_inside (hk : Inside k x) (hpos : 0 < k) :
    InsideChar (p ++ x) (byteLength p) (byteLength p + k) := by
  cases x with
  | nil => exact absurd hk (Nat.ne_of_gt hpos)
  | cons c rest => exact ⟨p, c, rest, rfl, rfl, by omega, Nat.add_lt_add_left hk _⟩

theorem atBoundary_return (q y : List Char) :
    AtBoundary (q ++ '\r' :: '\n' :: y) (byteLength q + 1) :=
  ⟨q ++ ['\r'], '\n' :: y, by simp, byteLength_return q⟩

theorem noSplit_crlf (q y : List Char) : NoSplit (q ++ ['\r', '\n']) y := by
  intro hlast
  rw [List.getLast?_append] at hlast
  exact absurd (Option.some.inj hlast) (by decide)

/-! ### Positions of places -/

theorem ofOffset_ofList (chars : List Char) (o : Nat) :
    ofOffset o (String.ofList chars) =
      .ok ((LineIndex.ofText (String.ofList chars)).locate (min o (byteLength chars))) := by
  rw [ofOffset_eq, LineIndex.bytes_ofText, ← byteLength_eq]

theorem ofOffset_inside (hsplit : NoSplit p x) (hk : Inside k x) :
    ofOffset (byteLength p + k : Nat) (String.ofList (p ++ x)) =
      .ok ⟨(spot p).1, (spot p).2⟩ := by
  have hle : byteLength p + k ≤ byteLength (p ++ x) := by
    rw [byteLength_append]
    exact Nat.add_le_add_left hk.le_byteLength _
  rw [ofOffset_ofList, Nat.min_eq_left hle, LineIndex.locate_inside hsplit hk]

theorem spot_crlf (q : List Char) : spot (q ++ ['\r', '\n']) = ((spot q).1 + 1, 0) :=
  spot_append q ['\r', '\n'] fun _ h => absurd (Option.some.inj h) (by decide)

/-- Between CR and LF the next line has begun, and its start is behind the LF. -/
theorem toOffset_crlf (q y : List Char) :
    toOffset ⟨(spot q).1 + 1, 0⟩ (String.ofList (q ++ '\r' :: '\n' :: y)) =
      .ok (byteLength q + 2) := by
  have hlength : byteLength (q ++ ['\r', '\n']) = byteLength q + 2 := by
    rw [byteLength_append, byteLength_crlf, byteLength_nil]
  have hback := toOffset_spot (noSplit_crlf q y)
  rw [spot_crlf, List.append_assoc, hlength] at hback
  push_cast at hback
  exact hback

theorem ofOffset_crlf (q y : List Char) :
    ofOffset (byteLength q + 1 : Nat) (String.ofList (q ++ '\r' :: '\n' :: y)) =
      .ok ⟨(spot q).1 + 1, 0⟩ := by
  have hle : byteLength q + 1 ≤ byteLength (q ++ '\r' :: '\n' :: y) := by
    rw [byteLength_append, byteLength_crlf]
    omega
  rw [ofOffset_ofList, Nat.min_eq_left hle, LineIndex.locate_crlf]

/-- An offset, and any offset past the end in place of the end, goes to a position
and back: from a boundary to itself, from inside a character to its start, and from
between CR and LF to the end of the line end. -/
theorem toOffset_ofOffset (text : String) (offset : Nat) :
    let chars := text.toList
    let o := min offset (Utf8.encode text).length
    ∃ position back, ofOffset offset text = .ok position ∧ position.toOffset text = .ok back ∧
      (AtBoundary chars o ∨ ∃ start, InsideChar chars start o) ∧
      (AtBoundary chars o → ¬ InsideCrlf chars o → back = o) ∧
      (∀ start, InsideChar chars start o → back = start) ∧
      (InsideCrlf chars o → back = o + 1) := by
  obtain ⟨chars, rfl⟩ : ∃ chars, text = String.ofList chars := ⟨text.toList, by simp⟩
  have hclamped := ofOffset_ofList chars (min offset (byteLength chars))
  rw [Nat.min_eq_left (Nat.min_le_right ..), ← ofOffset_ofList chars offset] at hclamped
  simp only [String.toList_ofList, Utf8.encode_ofList, ← byteLength_eq, ← hclamped]
  have hle : min offset (byteLength chars) ≤ byteLength chars := Nat.min_le_right ..
  generalize min offset (byteLength chars) = o at hle
  rcases exists_place chars hle with ⟨q, y, rfl, rfl⟩ | ⟨p, x, k, rfl, hsplit, hk, rfl⟩
  · have hboundary := atBoundary_return q y
    have hcrlf : InsideCrlf (q ++ '\r' :: '\n' :: y) (byteLength q + 1) := ⟨q, y, rfl, rfl⟩
    exact ⟨_, _, ofOffset_crlf q y, toOffset_crlf q y, .inl hboundary,
      fun _ hnot => absurd hcrlf hnot, fun _ hinside => absurd hinside hboundary.not_insideChar,
      fun _ => rfl⟩
  · refine ⟨_, _, ofOffset_inside hsplit hk, toOffset_spot hsplit, ?_, ?_, ?_, ?_⟩
    · rcases Nat.eq_zero_or_pos k with rfl | hpos
      · exact .inl ⟨p, x, rfl, rfl⟩
      · exact .inr ⟨_, insideChar_of_inside hk hpos⟩
    · intro hboundary _
      rw [hboundary.eq_zero hk, Nat.add_zero]
    · exact fun start hstart => (hstart.start_eq hk).1.symm
    · exact fun hcrlf => absurd hcrlf (not_insideCrlf hsplit hk)

example : [3, 5, 6, 99].map (fun o : Nat =>
    (do (← ofOffset o "a😀\r\nb").toOffset "a😀\r\nb").toOption) =
      [some 1, some 5, some 7, some 8] := by
  decide +kernel

end Position

/-! ### Columns -/

namespace Utf16

/-- Between the two halves of a surrogate pair. -/
def InPair (units : List Nat) (n : Nat) : Prop :=
  0 < n ∧ units[n - 1]?.any isHigh = true ∧ units[n]?.any isLow = true

/-- The columns of a line up to a limit: not past its end, and not inside a pair. -/
def columns (units : List Nat) (limit : Nat) : Set Nat :=
  {n | n ≤ units.length ∧ ¬ InPair units n ∧ n ≤ limit}

/-- What stands before a place inside a pair is no second half. -/
theorem InPair.not_pred {units : List Nat} {n : Nat} (h : InPair units n) :
    ¬ InPair units (n - 1) := by
  rintro ⟨-, -, hsecond⟩
  obtain ⟨u, hu, hlow⟩ := (Option.any_eq_true ..).mp hsecond
  have hfirst := h.2.1
  rw [hu, Option.any_some, isHigh_of_isLow hlow] at hfirst
  cases hfirst

/-- The column that is looked up is the last one up to the limit. -/
theorem isGreatest_column (units : List Nat) (limit : Nat) :
    IsGreatest (columns units limit) (column units limit) := by
  have hlimit := Nat.min_le_left limit units.length
  have hlength := Nat.min_le_right limit units.length
  unfold column
  dsimp only
  split_ifs with hpair
  · have hinside : InPair units (min limit units.length) := hpair
    refine ⟨⟨by omega, hinside.not_pred, by omega⟩, ?_⟩
    rintro n ⟨hn, houtside, hle⟩
    have hne : n ≠ min limit units.length := fun heq => houtside (heq ▸ hinside)
    omega
  · refine ⟨⟨hlength, hpair, hlimit⟩, ?_⟩
    rintro n ⟨hn, -, hle⟩
    exact Nat.le_min.mpr ⟨hle, hn⟩

end Utf16

/-! ### Lines -/

namespace Position

/-- The lines of a text without their ends: what is between the line feeds, once
all line ends are line feeds. -/
def contents (text : List Char) : List (List Char) := Text.between '\n' (feeds text)

theorem contents_feed {text rest : List Char} (h : feeds text = '\n' :: feeds rest) :
    contents text = [] :: contents rest := by
  rw [contents, h, Text.between, if_pos rfl]
  rfl

theorem contents_plain {c : Char} (hc : ¬(c = '\r' ∨ c = '\n')) {rest l : List Char}
    {more : List (List Char)} (h : contents rest = l :: more) :
    contents (c :: rest) = (c :: l) :: more := by
  rw [contents] at h
  rw [contents, feeds_plain hc, Text.between, if_neg fun hfeed => hc (.inr hfeed), h]

theorem length_between (separator : Char) (text : List Char) :
    (Text.between separator text).length = text.count separator + 1 := by
  induction text with
  | nil => rfl
  | cons c rest ih =>
    rw [Text.between]
    split_ifs with hc
    · rw [List.length_cons, ih, hc, List.count_cons_self]
    · rw [List.count_cons_of_ne hc, ← ih]
      cases hrest : Text.between separator rest with
      | nil => rw [hrest] at ih; cases ih
      | cons part more => rfl

theorem content_stop {c : Char} (hc : c = '\r' ∨ c = '\n') (rest : List Char) :
    content (c :: rest) = [] := by
  rcases hc with rfl | rfl <;> rfl

/-- There is a first line. -/
theorem exists_contents (text : List Char) : ∃ more, contents text = content text :: more := by
  induction text using lineInduction with
  | nil => exact ⟨[], rfl⟩
  | crlf rest ih => exact ⟨_, contents_feed (feeds_crlf rest)⟩
  | stop c rest hc hp ih =>
    rw [content_stop hc]
    exact ⟨_, contents_feed (feeds_stop hc hp)⟩
  | plain c rest hc ih =>
    obtain ⟨more, hrest⟩ := ih
    rw [content_cons hc]
    exact ⟨more, contents_plain hc hrest⟩

theorem spot_of_plain {p : List Char} (h : ∀ c ∈ p, ¬(c = '\r' ∨ c = '\n')) :
    spot p = (0, units p) := by
  induction p with
  | nil => rfl
  | cons c p ih =>
    obtain ⟨hc, hp⟩ := List.forall_mem_cons.mp h
    rw [spot_plain hc, ih hp, if_pos rfl]
    rfl

theorem NoSplit.cons {c : Char} {p x : List Char} (h : NoSplit p x)
    (hc : p = [] → c = '\r' → x.head? ≠ some '\n') : NoSplit (c :: p) x := by
  intro hlast
  cases p with
  | nil => exact hc rfl (Option.some.inj hlast)
  | cons d p => exact h (by rwa [List.getLast?_cons_cons] at hlast)

/-- Where a position is in a text: at the end of a beginning that has as many line
ends as the line says and a column of the line behind them, or at the end of the text. -/
structure Cuts (text : List Char) (line column : Nat) (p x : List Char) : Prop where
  text_eq : text = p ++ x
  noSplit : NoSplit p x
  offset_eq : offsetIn line column (lines text) = byteLength p
  within : ∀ l, (contents text)[line]? = some l →
    spot p = (line, Utf16.column (Utf16.encode l) column)
  beyond : (contents text).length ≤ line → p = text

/-- On the first line. -/
theorem exists_cuts_first (text : List Char) (column : Nat) :
    ∃ p x, Cuts text 0 column p x := by
  obtain ⟨p, x, hline, hbytes, hcolumn⟩ := Utf16.exists_split_column (content text) column
  obtain ⟨more, hcontents⟩ := exists_contents text
  have hplain : ∀ c ∈ p, ¬(c = '\r' ∨ c = '\n') := by
    intro c hc
    have hmem : c ∈ content text := hline ▸ List.mem_append_left x hc
    simpa using List.all_eq_true.mp List.all_takeWhile c hmem
  refine ⟨p, x ++ text.dropWhile fun c => c ≠ '\r' ∧ c ≠ '\n', ?_, ?_, ?_, ?_, ?_⟩
  · rw [← List.append_assoc, ← hline, content, List.takeWhile_append_dropWhile]
  · intro hlast
    exact absurd (.inl rfl) (hplain '\r' (List.mem_of_getLast? hlast))
  · rw [Utf16.offsetIn_first, hbytes]
  · intro l hl
    rw [hcontents] at hl
    obtain rfl := Option.some.inj hl
    rw [spot_of_plain hplain, hcolumn, length_encode_utf16]
  · rw [hcontents]
    exact fun h => absurd h (by simp)

/-- A line end uses up one line. -/
theorem Cuts.feed {rest p x : List Char} {line column : Nat} (h : Cuts rest line column p x)
    (stop : List Char) (hsplit : NoSplit (stop ++ p) x)
    (hlines : lines (stop ++ rest) = stop :: lines rest)
    (hcontents : contents (stop ++ rest) = [] :: contents rest)
    (hspot : spot (stop ++ p) = ((spot p).1 + 1, (spot p).2)) :
    Cuts (stop ++ rest) (line + 1) column (stop ++ p) x := by
  refine ⟨?_, hsplit, ?_, ?_, ?_⟩
  · rw [h.text_eq, List.append_assoc]
  · rw [hlines, offsetIn, h.offset_eq, byteLength_append]
  · intro l hl
    rw [hcontents, List.getElem?_cons_succ] at hl
    rw [hspot, h.within l hl]
  · rw [hcontents, List.length_cons]
    exact fun hle => by rw [h.beyond (Nat.le_of_succ_le_succ hle)]

/-- Any other character uses up none. -/
theorem Cuts.plain {rest p x : List Char} {line column : Nat} {c : Char}
    (h : Cuts rest (line + 1) column p x) (hc : ¬(c = '\r' ∨ c = '\n')) :
    Cuts (c :: rest) (line + 1) column (c :: p) x := by
  obtain ⟨more, hrest⟩ := exists_contents rest
  have hcontents := contents_plain hc hrest
  refine ⟨?_, h.noSplit.cons fun _ hreturn => absurd (.inl hreturn) hc, ?_, ?_, ?_⟩
  · rw [h.text_eq, List.cons_append]
  · rw [offsetIn_plain_line hc, h.offset_eq, byteLength_cons]
  · intro l hl
    have hwithin := h.within l
    rw [hrest] at hwithin
    rw [hcontents] at hl
    rw [spot_plain hc, hwithin hl, if_neg (Nat.succ_ne_zero line)]
  · have hbeyond := h.beyond
    rw [hrest] at hbeyond
    rw [hcontents]
    exact fun hle => by rw [hbeyond hle]

/-- Every position is somewhere in a text. -/
theorem exists_cuts (text : List Char) (line column : Nat) : ∃ p x, Cuts text line column p x := by
  induction text using lineInduction generalizing line with
  | nil =>
    cases line with
    | zero => exact exists_cuts_first [] column
    | succ n =>
      exact ⟨[], [], rfl, noSplit_nil _, rfl, fun l hl => (Option.some_ne_none l hl.symm).elim,
        fun _ => rfl⟩
  | crlf rest ih =>
    cases line with
    | zero => exact exists_cuts_first _ column
    | succ n =>
      obtain ⟨p, x, h⟩ := ih n
      have hfeed : NoSplit ('\n' :: p) x := h.noSplit.cons fun _ hc => absurd hc (by decide)
      have hsplit : NoSplit ('\r' :: '\n' :: p) x :=
        hfeed.cons fun hnil => absurd hnil (List.cons_ne_nil _ _)
      exact ⟨_, x, h.feed ['\r', '\n'] hsplit rfl (contents_feed (feeds_crlf rest)) rfl⟩
  | stop c rest hc hp ih =>
    cases line with
    | zero => exact exists_cuts_first _ column
    | succ n =>
      obtain ⟨p, x, h⟩ := ih n
      have hhead : c = '\r' → p.head? ≠ some '\n' := by
        intro hreturn hfeed
        exact hp hreturn (by rw [h.text_eq, List.head?_append, hfeed]; rfl)
      have hsplit : NoSplit (c :: p) x := by
        refine h.noSplit.cons fun hnil hreturn => ?_
        rw [h.text_eq, hnil] at hp
        exact hp hreturn
      exact ⟨_, x, h.feed [c] hsplit (lines_stop hc hp) (contents_feed (feeds_stop hc hp))
        (spot_stop hc hhead)⟩
  | plain c rest hc ih =>
    cases line with
    | zero => exact exists_cuts_first _ column
    | succ n =>
      obtain ⟨p, x, h⟩ := ih (n + 1)
      exact ⟨c :: p, x, h.plain hc⟩

/-- A position goes to an offset and back: on a line of the text it keeps the line and
gets the last column that the line has up to its own, and on a line past the end it
becomes the end of the text. Once there and back it stays as it is, and the
offset is a boundary that is not between CR and LF. -/
theorem ofOffset_toOffset (text : String) (line column : Nat) :
    let chars := text.toList
    (contents chars).length = (feeds chars).count '\n' + 1 ∧
    ∃ o position, toOffset ⟨line, column⟩ text = .ok o ∧ ofOffset o text = .ok position ∧
      (∀ l, (contents chars)[line]? = some l →
        ∃ c : Nat, position = ⟨line, c⟩ ∧
          IsGreatest (Utf16.columns (Utf16.encode l) column) c) ∧
      ((contents chars).length ≤ line → position = atEnd (feeds chars)) ∧
      ((do ofOffset (← position.toOffset text) text) = .ok position) ∧
      AtBoundary chars o ∧ ¬ InsideCrlf chars o := by
  obtain ⟨chars, rfl⟩ : ∃ chars, text = String.ofList chars := ⟨text.toList, by simp⟩
  obtain ⟨p, x, h⟩ := exists_cuts chars line column
  have hoffset : toOffset ⟨line, column⟩ (String.ofList chars) = .ok (byteLength p) := by
    rw [toOffset_natCast, String.toList_ofList, h.offset_eq]
  have hposition := ofOffset_inside h.noSplit (inside_zero x)
  have hback := toOffset_spot h.noSplit
  have hcrlf := not_insideCrlf h.noSplit (inside_zero x)
  rw [Nat.add_zero, ← h.text_eq] at hposition hcrlf
  rw [← h.text_eq] at hback
  simp only [String.toList_ofList]
  refine ⟨length_between '\n' _, _, _, hoffset, hposition, ?_, ?_, ?_, ⟨p, x, h.text_eq, rfl⟩, hcrlf⟩
  · intro l hl
    rw [h.within l hl]
    exact ⟨_, rfl, Utf16.isGreatest_column _ _⟩
  · intro hle
    rw [h.beyond hle, atEnd_feeds]
  · simp only [hback, bind, Except.bind, hposition]

example : [(0, 2), (0, 9), (1, 9), (7, 0)].map (fun (line, column) =>
    (do ofOffset (← toOffset ⟨line, column⟩ "a😀\r\nb") "a😀\r\nb").toOption) =
      [some ⟨0, 1⟩, some ⟨0, 3⟩, some ⟨1, 1⟩, some ⟨1, 1⟩] := by
  decide +kernel

end Position

end RenameServer
