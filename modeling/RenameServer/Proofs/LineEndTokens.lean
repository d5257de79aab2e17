import RenameServer.Proofs.Applying
import RenameServer.Proofs.Cursor
import RenameServer.Proofs.LineEnds

/-!
Tokens whatever the line ends. A source with its line ends written in one way is
cut into the same lexemes, literals with line ends in them included, and has the
same tokens in the same order. A token keeps its bytes, since no line end is
among them, and both its ends move to their places.
-/
namespace RenameServer.LineEnd

open Utf8 (Bytes)
open Lexeme Respelling

/-- A token at another place. -/
def move (place : Nat → Nat) (t : Token) : Token := { t with start := place t.start }

/-- Offsets in a piece that stands at `base`, and at `start` in the result. -/
def placeFrom (base start : Nat) (s : Bytes) (o : Nat) : Nat := base + place s (o - start)

theorem placeFrom_self (base start : Nat) (s : Bytes) : placeFrom base start s start = base := by
  rw [placeFrom, Nat.sub_self, place_zero, Nat.add_zero]

section

variable {base start o : Nat} {b : UInt8} {rest : Bytes}

theorem placeFrom_dropped (h : Dropped b rest) (ho : start < o) :
    placeFrom base start (b :: rest) o = placeFrom (base + 1) start rest o := by
  obtain ⟨k, rfl⟩ := Nat.exists_eq_add_of_lt ho
  have hk : start + k + 1 - start = k + 1 := by omega
  rw [placeFrom, placeFrom, hk, place_dropped h]
  omega

theorem placeFrom_written (h : ¬ Dropped b rest) (ho : start < o) :
    placeFrom base start (b :: rest) o = placeFrom (base + 1) (start + 1) rest o := by
  obtain ⟨k, rfl⟩ := Nat.exists_eq_add_of_lt ho
  have hk : start + k + 1 - start = k + 1 := by omega
  have hk' : start + k + 1 - (start + 1) = k := by omega
  rw [placeFrom, placeFrom, hk, hk', place_written h]
  omega

theorem placeFrom_append_left {p x : Bytes} (h : Whole p x) (ho : o ≤ start + (unix p).length) :
    placeFrom base start (p ++ x) o = placeFrom base start p o := by
  rw [placeFrom, placeFrom, place_append_left h (by omega)]

theorem placeFrom_append_right {p x : Bytes} (h : Whole p x) (ho : start + (unix p).length ≤ o) :
    placeFrom base start (p ++ x) o =
      placeFrom (base + p.length) (start + (unix p).length) x o := by
  obtain ⟨k, rfl⟩ := Nat.exists_eq_add_of_le ho
  have hk : start + (unix p).length + k - start = (unix p).length + k := by omega
  have hk' : start + (unix p).length + k - (start + (unix p).length) = k := by omega
  rw [placeFrom, placeFrom, hk, hk', place_append_right h, Nat.add_assoc]

end

/-- Tokens whose places agree move alike. -/
theorem map_move_congr {f g : Nat → Nat} {tokens : List Token}
    (h : ∀ t ∈ tokens, f t.start = g t.start) : tokens.map (move f) = tokens.map (move g) := by
  apply List.map_congr_left
  intro t ht
  rw [move, move, h t ht]

theorem keepsKinds_none : KeepsKinds fun _ => none := fun _ _ h => nomatch h

theorem apart_interpolated (start : Nat) (previous : UInt8) (s : Bytes) :
    Apart start (start + s.length) (Token.interpolated start previous s) :=
  (stable_interpolated keepsKinds_none start previous s).apart

theorem apart_ofLexeme (start : Nat) {b : UInt8} {rest : Bytes} {kind : Kind} {n : Nat}
    (h : Starts b rest kind n) :
    Apart start (start + (b :: rest.take n).length)
      (Token.ofLexeme start ⟨kind, b :: rest.take n⟩) :=
  (stableLexeme_of_starts keepsKinds_none start h).stable.apart

theorem apart_ofLexemes (start : Nat) (s : Bytes) :
    Apart start (start + s.length) (Token.ofLexemes start (cut s)) :=
  (stable_cut keepsKinds_none start s).apart

/-- A dropped byte before the variables inside a literal: what stands before the
line feed makes no difference behind it. -/
theorem interpolated_dropped (base start : Nat) {b previous previous' : UInt8} {rest : Bytes}
    (hd : Dropped b rest)
    (h : Token.interpolated (base + 1) b rest =
      (Token.interpolated start b (unix rest)).map (move (placeFrom (base + 1) start rest))) :
    Token.interpolated base previous (b :: rest) =
      (Token.interpolated start previous' (unix (b :: rest))).map
        (move (placeFrom base start (b :: rest))) := by
  obtain ⟨more, -, hunix⟩ := hd.exists_unix
  have hskip : ∀ q, Token.interpolated start q (unix rest) =
      Token.interpolated (start + 1) lineFeed (unix more) := by
    intro q
    rw [hunix]
    exact interpolated_plain start fun h => absurd h.1 (by decide)
  have hplain : ¬(b = dollar ∧ previous ≠ backslash ∧ rest.head?.any isNameStart = true) := by
    rw [hd.1]
    exact fun h => absurd h.1 (by decide)
  rw [interpolated_plain base hplain, h, unix_dropped hd, hskip, hskip]
  apply map_move_congr
  intro t ht
  have hbound := ((apart_interpolated _ _ _).bounds t ht).1
  exact (placeFrom_dropped hd (by omega)).symm

/-- The variables inside a literal. -/
theorem interpolated_unix (base start : Nat) {previous previous' : UInt8}
    (hprevious : previous' = backslash ↔ previous = backslash) (s : Bytes) :
    Token.interpolated base previous s =
      (Token.interpolated start previous' (unix s)).map (move (placeFrom base start s)) := by
  induction s generalizing base start previous previous' with
  | nil => rfl
  | cons b rest ih =>
    by_cases hd : Dropped b rest
    · exact interpolated_dropped base start hd (ih (base + 1) start Iff.rfl)
    have hrest : Token.interpolated (base + 1) b rest =
        (Token.interpolated (start + 1) (written b) (unix rest)).map
          (move (placeFrom base start (b :: rest))) := by
      rw [ih (base + 1) (start + 1) (written_eq_iff (by decide) (by decide))]
      apply map_move_congr
      intro t ht
      have hbound := ((apart_interpolated _ _ _).bounds t ht).1
      exact (placeFrom_written hd hbound).symm
    have hiff : (written b = dollar ∧ previous' ≠ backslash ∧
        (unix rest).head?.any isNameStart = true) ↔
        (b = dollar ∧ previous ≠ backslash ∧ rest.head?.any isNameStart = true) := by
      rw [written_eq_iff (by decide) (by decide), breakless_nameStart.head?_any, Ne, Ne, hprevious]
    rw [unix_written hd, Token.interpolated, Token.interpolated, hrest,
      breakless_nameByte.takeWhile_unix]
    by_cases hvariable : b = dollar ∧ previous ≠ backslash ∧ rest.head?.any isNameStart = true
    · rw [if_pos hvariable, if_pos (hiff.mpr hvariable), List.map_cons, move, placeFrom_self,
        written_of_ne (by rw [hvariable.1]; decide)]
    · rw [if_neg hvariable, if_neg (mt hiff.mp hvariable)]

/-- Names and marks have no line end in them. -/
theorem Starts.noBreak {b : UInt8} {rest : Bytes} {kind : Kind} {n : Nat}
    (h : Starts b rest kind n)
    (hkind : kind = .variable ∨ kind = .identifier ∨ kind = .punct) :
    NoBreak (b :: rest.take n) := by
  have hcons : ∀ {c : UInt8} {s : Bytes}, c ≠ carriageReturn ∧ c ≠ lineFeed → NoBreak s →
      NoBreak (c :: s) := fun hc hs => List.forall_mem_cons.mpr ⟨hc, hs⟩
  cases h with
  | line | block | hash | single | double | other => simp at hkind
  | «variable» h => exact hcons (by decide) (breakless_nameByte.run_unix rest).2
  | identifier rest h =>
    have hb : NoBreak [b] := breakless_nameStart.noBreak (by simpa using h)
    exact hcons (hb b (by simp)) (breakless_nameByte.run_unix rest).2
  | static rest => exact (by decide : NoBreak [colon, colon])
  | arrow rest => exact (by decide : NoBreak [minus, greater])
  | mark rest h =>
    have hb : b ≠ carriageReturn ∧ b ≠ lineFeed := by rcases h with rfl | rfl | rfl <;> decide
    exact hcons (s := []) hb (by decide)

/-- The tokens of one lexeme. -/
theorem ofLexeme_unix (base start : Nat) {b : UInt8} {rest : Bytes} {kind : Kind} {n : Nat}
    (h : Starts b rest kind n) :
    Token.ofLexeme base ⟨kind, b :: rest.take n⟩ =
      (Token.ofLexeme start ⟨kind, unix (b :: rest.take n)⟩).map
        (move (placeFrom base start (b :: rest.take n))) := by
  have hone : ∀ {s : Bytes} (k : Token.Kind), NoBreak s →
      [(⟨k, base, s⟩ : Token)] = [⟨k, start, unix s⟩].map (move (placeFrom base start s)) := by
    intro s k hs
    rw [hs.unix_eq, List.map_singleton, move, placeFrom_self]
  have hbreak := Starts.noBreak h
  cases h with
  | line | block | hash | single | other => rfl
  | double => exact interpolated_unix base start Iff.rfl _
  | «variable» => exact hone _ (hbreak (by simp))
  | identifier => exact hone _ (hbreak (by simp))
  | static | arrow | mark => exact hone _ (hbreak (by simp))

/-- The first lexeme of a source, unless the source begins with a dropped byte. -/
theorem starts_unix {b : UInt8} {rest : Bytes} (hd : ¬ Dropped b rest) :
    let e := extent b rest
    Whole (b :: rest.take e.2) (rest.drop e.2) ∧
      unix (b :: rest.take e.2) = written b :: unix (rest.take e.2) ∧
      Starts (written b) (unix (rest.take e.2) ++ unix (rest.drop e.2)) e.1
        (unix (rest.take e.2)).length := by
  intro e
  obtain ⟨hstarts, hwhole⟩ := Starts.unix (starts_extent b rest) hd
  have hrest := unix_append hwhole.of_cons
  rw [List.take_append_drop] at hrest
  refine ⟨hwhole, ?_, by rwa [hrest] at hstarts⟩
  apply unix_written
  rwa [← hwhole.dropped_iff, List.take_append_drop]

/-- A dropped byte before the tokens of a source. -/
theorem ofLexemes_dropped (base start : Nat) {b : UInt8} {rest : Bytes} (hd : Dropped b rest)
    (h : Token.ofLexemes (base + 1) (cut rest) =
      (Token.ofLexemes start (cut (unix rest))).map (move (placeFrom (base + 1) start rest))) :
    Token.ofLexemes base (cut (b :: rest)) =
      (Token.ofLexemes start (cut (unix (b :: rest)))).map
        (move (placeFrom base start (b :: rest))) := by
  have hidle : ∀ {c : UInt8} (s : Bytes) (n : Nat), c = carriageReturn ∨ c = lineFeed →
      Token.ofLexemes n (cut (c :: s)) = Token.ofLexemes (n + 1) (cut s) := by
    intro c s n hc
    have hstarts : Starts c ([] ++ s) .other 0 := by rcases hc with rfl | rfl <;> exact .other {}
    have hcut : cut (c :: s) = ⟨.other, [c]⟩ :: cut s := cut_of_starts hstarts rfl
    rw [hcut]
    rfl
  obtain ⟨more, -, hunix⟩ := hd.exists_unix
  rw [hidle rest base (.inl hd.1), h, unix_dropped hd, hunix, hidle _ start (.inr rfl)]
  apply map_move_congr
  intro t ht
  have hbound := ((apart_ofLexemes _ _).bounds t ht).1
  exact (placeFrom_dropped hd (by omega)).symm

/-- The tokens of a source from `base` on, which is at `start` in the result. -/
theorem ofLexemes_unix (base start : Nat) (s : Bytes) :
    Token.ofLexemes base (cut s) =
      (Token.ofLexemes start (cut (unix s))).map (move (placeFrom base start s)) := by
  induction hn : s.length using Nat.strongRecOn generalizing base start s with
  | ind n ih =>
    cases s with
    | nil =>
      rw [unix, cut]
      rfl
    | cons b rest =>
      by_cases hd : Dropped b rest
      · exact ofLexemes_dropped base start hd (ih rest.length (by simp [← hn]) _ _ rest rfl)
      · obtain ⟨hwhole, hunix, hstarts⟩ := starts_unix hd
        rw [cut]
        generalize hextent : extent b rest = e at hwhole hunix hstarts ⊢
        have hlexeme := ofLexeme_unix base start (extent_eq_iff.mp hextent)
        have hsplit : b :: rest = (b :: rest.take e.2) ++ rest.drop e.2 := by simp
        have hshort : (rest.drop e.2).length < n := by
          rw [← hn, List.length_drop, List.length_cons]
          omega
        have hrest := ih _ hshort (base + (b :: rest.take e.2).length)
          (start + (unix (b :: rest.take e.2)).length) (rest.drop e.2) rfl
        have hcut : cut (unix (b :: rest)) =
            ⟨e.1, unix (b :: rest.take e.2)⟩ :: cut (unix (rest.drop e.2)) := by
          rw [hsplit, unix_append hwhole, hunix]
          exact cut_of_starts hstarts rfl
        have hapart := apart_ofLexeme start hstarts
        rw [List.take_left, ← hunix] at hapart
        rw [hcut, Token.ofLexemes, Token.ofLexemes, List.map_append, hlexeme, hrest, hsplit]
        congr 1
        · apply map_move_congr
          intro t ht
          have hbound := hapart.bounds t ht
          exact (placeFrom_append_left hwhole (by omega)).symm
        · apply map_move_congr
          intro t ht
          have hbound := ((apart_ofLexemes _ _).bounds t ht).1
          exact (placeFrom_append_right hwhole hbound).symm

/-- A source has the same tokens after the translation, at their places. -/
theorem scan_unix (s : Bytes) : Token.scan s = (Token.scan (unix s)).map (move (place s)) := by
  rw [Token.scan, ofLexemes_unix 0 0 s]
  apply map_move_congr
  intro t _
  rw [placeFrom, Nat.zero_add, Nat.sub_zero]

/-- No token has a line end in it. -/
theorem noBreak_of_mem_ofLexemes {t : Token} (hspelled : Spelled t.kind t.value) (s : Bytes)
    {start : Nat} (h : t ∈ Token.ofLexemes start (cut s)) : NoBreak t.value := by
  fun_induction cut s generalizing start with
  | case1 => cases h
  | case2 b rest e =>
    rename_i ih
    rcases List.mem_append.mp h with h | h
    · have hstarts : Starts b rest e.1 e.2 := starts_extent b rest
      have hbreak := Starts.noBreak hstarts
      generalize e = e' at hstarts hbreak h
      obtain ⟨kind, n⟩ := e'
      cases hstarts with
      | line | block | hash | single | other => cases h
      | double =>
        have hkind := Token.kind_of_mem_interpolated h
        have hbyte := Applying.byte_of_spelled (by rw [hkind]; decide) hspelled
        intro c hc
        rcases hbyte c hc with rfl | hname
        · decide
        · exact breakless_nameByte.noBreak (s := [c]) (by simpa using hname) c (by simp)
      | «variable» | identifier | static | arrow | mark =>
        obtain rfl := List.mem_singleton.mp h
        exact hbreak (by simp)
    · exact ih h

theorem noBreak_of_mem_scan {t : Token} {s : Bytes} (h : t ∈ Token.scan s) : NoBreak t.value :=
  noBreak_of_mem_ofLexemes ((apart_scan s).spelled t h) s h

/-- A piece without line ends stands in the result as it is. -/
theorem place_piece {p v x : Bytes} (hv : NoBreak v) (hne : v ≠ []) {k : Nat} (hk : k ≤ v.length) :
    place (p ++ (v ++ x)) ((unix p).length + k) = p.length + k := by
  rw [place_append_right (hv.whole_right hne p x),
    place_append_left (hv.whole_left x) (by rwa [hv.unix_eq]), hv.place_eq]

/-- Where a token of the result stands in the source. -/
theorem exists_piece {t : Token} {s : Bytes} (h : t ∈ Token.scan (unix s)) :
    ∃ p x, s = p ++ (t.value ++ x) ∧ p.length = place s t.start ∧ (unix p).length = t.start := by
  have hmoved : move (place s) t ∈ Token.scan s := by
    rw [scan_unix s]
    exact List.mem_map_of_mem h
  obtain ⟨p, x, hsource, hstart, -⟩ := Token.inBytes_of_mem_scan hmoved
  have hplace : p.length = place s t.start := by
    rw [Nat.zero_add] at hstart
    exact hstart
  refine ⟨p, x, hsource, hplace, ?_⟩
  apply (place_strictMono s).injective
  have hpiece := place_piece (p := p) (x := x) (noBreak_of_mem_scan h)
    ((apart_scan _).spelled t h).ne_nil (Nat.zero_le _)
  rw [← hplace, hsource]
  exact hpiece

/-- The end of a token moves along with its start. -/
theorem place_stop {t : Token} {s : Bytes} (h : t ∈ Token.scan (unix s)) :
    place s t.stop = (move (place s) t).stop := by
  obtain ⟨p, x, hsource, hplace, hstart⟩ := exists_piece h
  have hpiece := place_piece (p := p) (x := x) (noBreak_of_mem_scan h)
    ((apart_scan _).spelled t h).ne_nil (Nat.le_refl _)
  have hstop : t.stop = (unix p).length + t.value.length := by
    rw [hstart]
    rfl
  calc place s t.stop
      = p.length + t.value.length := by rw [hstop, ← hpiece, ← hsource]
    _ = (move (place s) t).stop := by rw [hplace]; rfl

end RenameServer.LineEnd
