import Mathlib.Order.Monotone.Basic
import RenameServer.Proofs.Boundaries

/-!
Line ends written in one way: a carriage return before a line feed goes, and
any other becomes a line feed. Every offset of the result has its place in the
source, in the same order. No lexeme ends inside a CRLF, and no lexeme depends on
how a line ends, so it is a lexeme of the same kind in the result.
-/
namespace RenameServer.LineEnd

open Utf8 (Bytes)
open Lexeme

/-- The first half of a CRLF, which has no byte of its own in the result. -/
def Dropped (b : UInt8) (rest : Bytes) : Prop :=
  b = carriageReturn ∧ rest.head? = some lineFeed

instance (b : UInt8) (rest : Bytes) : Decidable (Dropped b rest) :=
  inferInstanceAs (Decidable (_ ∧ _))

/-- What is written for any other byte. -/
def written (b : UInt8) : UInt8 := if b = carriageReturn then lineFeed else b

/-- The bytes with every line end written as a line feed. -/
def unix : Bytes → Bytes
  | [] => []
  | b :: rest => if Dropped b rest then unix rest else written b :: unix rest

/-- The offset in the bytes that an offset in the result stands for. -/
def place : Bytes → Nat → Nat
  | _, 0 => 0
  | [], o + 1 => o + 1
  | b :: rest, o + 1 => if Dropped b rest then place rest (o + 1) + 1 else place rest o + 1

/-- Bytes without line ends. -/
def NoBreak (bytes : Bytes) : Prop := ∀ b ∈ bytes, b ≠ carriageReturn ∧ b ≠ lineFeed

instance (bytes : Bytes) : Decidable (NoBreak bytes) :=
  List.decidableBAll _ bytes

/-- The end of the first bytes is not inside a CRLF. -/
def Whole (p x : Bytes) : Prop := p.getLast? = some carriageReturn → x.head? ≠ some lineFeed

section

variable {b : UInt8} {rest : Bytes}

theorem unix_dropped (h : Dropped b rest) : unix (b :: rest) = unix rest := if_pos h

theorem unix_written (h : ¬ Dropped b rest) : unix (b :: rest) = written b :: unix rest := if_neg h

@[simp] theorem place_zero (s : Bytes) : place s 0 = 0 := by
  unfold place
  rfl

theorem place_dropped (h : Dropped b rest) (o : Nat) :
    place (b :: rest) (o + 1) = place rest (o + 1) + 1 := if_pos h

theorem place_written (h : ¬ Dropped b rest) (o : Nat) :
    place (b :: rest) (o + 1) = place rest o + 1 := if_neg h

theorem written_of_ne (h : b ≠ carriageReturn) : written b = b := if_neg h

theorem not_dropped_of_ne (h : b ≠ carriageReturn) : ¬ Dropped b rest := fun hd => h hd.1

theorem unix_of_ne (h : b ≠ carriageReturn) (rest : Bytes) : unix (b :: rest) = b :: unix rest := by
  rw [unix_written (not_dropped_of_ne h), written_of_ne h]

/-- What follows a dropped byte is the line feed. -/
theorem Dropped.exists_unix (h : Dropped b rest) :
    ∃ more, rest = lineFeed :: more ∧ unix rest = lineFeed :: unix more := by
  obtain ⟨more, rfl⟩ := List.head?_eq_some_iff.mp h.2
  exact ⟨more, rfl, unix_of_ne (by decide) more⟩

/-- A byte that is no line feed is written only for itself. -/
theorem eq_of_written {c : UInt8} (hc : c ≠ lineFeed) (h : written b = c) : b = c := by
  unfold written at h
  split at h
  · exact absurd h.symm hc
  · exact h

theorem written_eq_iff {c : UInt8} (hreturn : c ≠ carriageReturn) (hfeed : c ≠ lineFeed) :
    written b = c ↔ b = c := by
  constructor
  · exact eq_of_written hfeed
  · rintro rfl
    exact written_of_ne hreturn

end

/-! ### Bytes without line ends -/

theorem NoBreak.tail {b : UInt8} {s : Bytes} (h : NoBreak (b :: s)) : NoBreak s :=
  fun c hc => h c (List.mem_cons_of_mem b hc)

theorem NoBreak.unix_eq {s : Bytes} (h : NoBreak s) : unix s = s := by
  induction s with
  | nil => rfl
  | cons b s ih => rw [unix_of_ne (h b (List.mem_cons_self ..)).1, ih h.tail]

theorem NoBreak.place_eq {s : Bytes} (h : NoBreak s) (o : Nat) : place s o = o := by
  induction s generalizing o with
  | nil => cases o <;> rfl
  | cons b s ih =>
    have hb : ¬ Dropped b s := not_dropped_of_ne (h b (List.mem_cons_self ..)).1
    cases o with
    | zero => exact place_zero _
    | succ o => rw [place_written hb, ih h.tail]

theorem NoBreak.whole_left {s : Bytes} (h : NoBreak s) (x : Bytes) : Whole s x :=
  fun hlast => absurd rfl (h _ (List.mem_of_getLast? hlast)).1

theorem NoBreak.whole_right {s : Bytes} (h : NoBreak s) (hne : s ≠ []) (p x : Bytes) :
    Whole p (s ++ x) := by
  obtain ⟨b, s, rfl⟩ := List.exists_cons_of_ne_nil hne
  intro _ hhead
  exact (h b (List.mem_cons_self ..)).2 (Option.some.inj hhead)

/-! ### Two pieces -/

theorem Whole.of_cons {b : UInt8} {p x : Bytes} (h : Whole (b :: p) x) : Whole p x := by
  intro hlast
  apply h
  exact getLast?_cons_of_some hlast b

theorem Whole.cons {b : UInt8} {p x : Bytes} (hb : b ≠ carriageReturn) (h : Whole p x) :
    Whole (b :: p) x := by
  intro hlast
  cases p with
  | nil => exact absurd (Option.some.inj hlast) hb
  | cons c p => exact h (by rwa [List.getLast?_cons_cons] at hlast)

theorem whole_nil_right (p : Bytes) : Whole p [] := fun _ => nofun

/-- Whether a byte goes is decided inside its own piece. -/
theorem Whole.dropped_iff {b : UInt8} {p x : Bytes} (h : Whole (b :: p) x) :
    Dropped b (p ++ x) ↔ Dropped b p := by
  cases p with
  | nil => exact iff_of_false (fun hd => h (by rw [hd.1]; rfl) hd.2) fun hd => nomatch hd.2
  | cons c p => exact Iff.rfl

theorem unix_append {p x : Bytes} (h : Whole p x) : unix (p ++ x) = unix p ++ unix x := by
  induction p with
  | nil => rfl
  | cons b p ih =>
    rw [List.cons_append]
    by_cases hd : Dropped b p
    · rw [unix_dropped (h.dropped_iff.mpr hd), unix_dropped hd, ih h.of_cons]
    · rw [unix_written (mt h.dropped_iff.mp hd), unix_written hd, ih h.of_cons, List.cons_append]

theorem place_append_left {p x : Bytes} (h : Whole p x) {o : Nat} (ho : o ≤ (unix p).length) :
    place (p ++ x) o = place p o := by
  induction p generalizing o with
  | nil =>
    have hzero : o = 0 := Nat.le_zero.mp ho
    rw [hzero, place_zero, place_zero]
  | cons b p ih =>
    cases o with
    | zero => rw [place_zero, place_zero]
    | succ o =>
      rw [List.cons_append]
      by_cases hd : Dropped b p
      · rw [unix_dropped hd] at ho
        rw [place_dropped (h.dropped_iff.mpr hd), place_dropped hd, ih h.of_cons ho]
      · rw [unix_written hd] at ho
        rw [place_written (mt h.dropped_iff.mp hd), place_written hd,
          ih h.of_cons (Nat.le_of_succ_le_succ ho)]

theorem place_append_right {p x : Bytes} (h : Whole p x) (k : Nat) :
    place (p ++ x) ((unix p).length + k) = p.length + place x k := by
  induction p with
  | nil => simp [unix]
  | cons b p ih =>
    have hrest := ih h.of_cons
    rw [List.cons_append, List.length_cons]
    by_cases hd : Dropped b p
    · obtain ⟨more, rfl, hunix⟩ := hd.exists_unix
      rw [hunix, List.length_cons, Nat.add_right_comm] at hrest
      rw [unix_dropped hd, hunix, List.length_cons, Nat.add_right_comm,
        place_dropped (h.dropped_iff.mpr hd), hrest]
      omega
    · rw [unix_written hd, List.length_cons, Nat.add_right_comm,
        place_written (mt h.dropped_iff.mp hd), hrest]
      omega

theorem place_strictMono (s : Bytes) : StrictMono (place s) := by
  apply strictMono_nat_of_lt_succ
  intro o
  induction s generalizing o with
  | nil => cases o <;> simp [place]
  | cons b s ih =>
    by_cases hd : Dropped b s
    · cases o with
      | zero =>
        rw [place_zero, place_dropped hd]
        omega
      | succ o =>
        rw [place_dropped hd, place_dropped hd]
        exact Nat.succ_lt_succ (ih (o + 1))
    · cases o with
      | zero =>
        rw [place_zero, place_written hd]
        omega
      | succ o =>
        rw [place_written hd, place_written hd]
        exact Nat.succ_lt_succ (ih o)

/-! ### What the first bytes say -/

/-- A byte that is no line feed stands first in both or in none. -/
theorem head?_unix {c : UInt8} (hreturn : c ≠ carriageReturn) (hfeed : c ≠ lineFeed) (s : Bytes) :
    (unix s).head? = some c ↔ s.head? = some c := by
  cases s with
  | nil => exact Iff.rfl
  | cons b s =>
    by_cases hd : Dropped b s
    · obtain ⟨more, -, hunix⟩ := hd.exists_unix
      rw [unix_dropped hd, hunix, hd.1]
      exact iff_of_false (fun h => hfeed (Option.some.inj h).symm)
        fun h => hreturn (Option.some.inj h).symm
    · rw [unix_written hd, List.head?_cons, List.head?_cons, Option.some.injEq, Option.some.injEq]
      exact written_eq_iff hreturn hfeed

/-- A class of bytes to which no line end belongs. -/
structure Breakless (p : UInt8 → Bool) : Prop where
  not_return : p carriageReturn = false
  not_feed : p lineFeed = false

variable {p : UInt8 → Bool}

theorem Breakless.written_eq (hp : Breakless p) (b : UInt8) : p (written b) = p b := by
  unfold written
  split
  · next hb => rw [hb, hp.not_return, hp.not_feed]
  · rfl

theorem Breakless.noBreak (hp : Breakless p) {s : Bytes} (h : ∀ b ∈ s, p b = true) :
    NoBreak s := by
  intro b hb
  have hmem := h b hb
  constructor
  · rintro rfl
    rw [hp.not_return] at hmem
    cases hmem
  · rintro rfl
    rw [hp.not_feed] at hmem
    cases hmem

theorem Breakless.takeWhile_unix (hp : Breakless p) (s : Bytes) :
    (unix s).takeWhile p = s.takeWhile p := by
  induction s with
  | nil => rfl
  | cons b s ih =>
    by_cases hd : Dropped b s
    · obtain ⟨more, -, hunix⟩ := hd.exists_unix
      rw [unix_dropped hd, hunix, hd.1, List.takeWhile_cons_of_neg (by simp [hp.not_feed]),
        List.takeWhile_cons_of_neg (by simp [hp.not_return])]
    · rw [unix_written hd]
      by_cases hb : p b = true
      · have hsame := written_of_ne (hp.noBreak (s := [b]) (by simpa using hb) b (by simp)).1
        rw [hsame, List.takeWhile_cons_of_pos hb, List.takeWhile_cons_of_pos hb, ih]
      · have hwritten : ¬ p (written b) = true := by rwa [hp.written_eq]
        rw [List.takeWhile_cons_of_neg hwritten, List.takeWhile_cons_of_neg hb]

theorem Breakless.head?_any (hp : Breakless p) (s : Bytes) :
    (unix s).head?.any p = s.head?.any p := by
  cases s with
  | nil => rfl
  | cons b s =>
    by_cases hd : Dropped b s
    · obtain ⟨more, -, hunix⟩ := hd.exists_unix
      rw [unix_dropped hd, hunix, hd.1]
      exact hp.not_feed.trans hp.not_return.symm
    · rw [unix_written hd]
      exact hp.written_eq b

theorem breakless_nameByte : Breakless isNameByte := ⟨by decide, by decide⟩

theorem breakless_nameStart : Breakless isNameStart := ⟨by decide, by decide⟩

theorem breakless_line :
    Breakless fun b => decide (b ≠ carriageReturn ∧ b ≠ lineFeed) := ⟨by decide, by decide⟩

/-! ### Lexemes -/

/-- What may stand last in a literal has nothing to do with line ends. -/
theorem Body.unix {quote : UInt8} {last s : Bytes} (hquote : NoBreak [quote])
    (hlast : NoBreak last) (h : Body quote last s) : Body quote last (unix s) := by
  have hfeed : lineFeed ≠ quote := fun heq => (hquote quote (by simp)).2 heq.symm
  induction h with
  | last =>
    rw [hlast.unix_eq]
    exact .last
  | @escaped c s h ih =>
    rw [unix_of_ne (by decide)]
    by_cases hd : Dropped c s
    · -- the escaped byte is the first half of a CRLF, then the other half is
      obtain ⟨more, -, hunix⟩ := hd.exists_unix
      rw [unix_dropped hd]
      rw [hunix] at ih ⊢
      cases ih with
      | last => exact absurd rfl (hlast lineFeed (List.mem_cons_self ..)).2
      | plain _ _ hmore => exact .escaped lineFeed hmore
    · rw [unix_written hd]
      exact .escaped (written c) ih
  | @plain b s hb hescape h ih =>
    by_cases hd : Dropped b s
    · rw [unix_dropped hd]
      exact ih
    · rw [unix_written hd]
      unfold written
      split
      · exact .plain hfeed (by decide) ih
      · exact .plain hb hescape ih

theorem literalLength?_unix {quote : UInt8} (hquote : quote ≠ backslash)
    (hbreak : NoBreak [quote]) {s : Bytes} {n : Nat} (h : literalLength? quote s = some n) :
    literalLength? quote (unix s) = some (unix (s.take n)).length ∧
      Whole (s.take n) (s.drop n) := by
  rcases literalLength?_eq_some hquote h with hbody | ⟨rfl, hbody⟩
  · have hwhole : Whole (s.take n) (s.drop n) := by
      intro hlast
      rw [hbody.getLast? rfl] at hlast
      exact absurd (Option.some.inj hlast) (hbreak quote (by simp)).1
    refine ⟨?_, hwhole⟩
    have hsplit := unix_append hwhole
    rw [List.take_append_drop] at hsplit
    rw [hsplit, (Body.unix hbreak hbreak hbody).closed hquote]
  · rw [List.take_length, List.drop_length]
    exact ⟨(Body.unix hbreak (by decide) hbody).unclosed hquote, whole_nil_right s⟩

theorem literalLength?_unix_none {quote : UInt8} (hquote : quote ≠ backslash)
    (hbreak : NoBreak [quote]) {s : Bytes} (h : literalLength? quote s = none) :
    literalLength? quote (unix s) = none := by
  have hbody := (literalLength?_eq_none hquote).mp h
  exact (literalLength?_eq_none hquote).mpr (Body.unix hbreak (by decide) hbody)

/-- A block comment ends with its mark or with the source. -/
theorem whole_block (s : Bytes) : Whole (s.take (blockLength s)) (s.drop (blockLength s)) := by
  rcases blockLength_cases s with hend | hlast
  · rw [hend]
    exact whole_nil_right _
  · intro hreturn
    rw [hlast] at hreturn
    exact absurd (Option.some.inj hreturn) (by decide)

theorem blockLength_unix (s : Bytes) :
    blockLength (unix s) = (unix (s.take (blockLength s))).length := by
  induction s with
  | nil => rfl
  | cons b s ih =>
    by_cases hclose : b = star ∧ s.head? = some slash
    · obtain ⟨rfl, hhead⟩ := hclose
      obtain ⟨more, rfl⟩ := List.head?_eq_some_iff.mp hhead
      rw [unix_of_ne (by decide), unix_of_ne (by decide)]
      rfl
    · have hlength : blockLength (b :: s) = blockLength s + 1 := by
        rw [blockLength, if_neg hclose]
      have hdrop := whole_block (b :: s)
      rw [hlength, List.take_succ_cons, List.drop_succ_cons] at hdrop
      have hiff := hdrop.dropped_iff
      rw [List.take_append_drop] at hiff
      rw [hlength, List.take_succ_cons]
      by_cases hd : Dropped b s
      · rw [unix_dropped hd, unix_dropped (hiff.mp hd), ih]
      · have hopen : ¬(written b = star ∧ (unix s).head? = some slash) := by
          rintro ⟨hb, hhead⟩
          exact hclose ⟨eq_of_written (by decide) hb,
            (head?_unix (by decide) (by decide) s).mp hhead⟩
        rw [unix_written hd, unix_written (mt hiff.mpr hd), blockLength, if_neg hopen, ih,
          List.length_cons]

/-- A longest run of bytes of a class ends before a line end. -/
theorem Breakless.run_unix (hp : Breakless p) (s : Bytes) :
    (unix (s.take (s.takeWhile p).length)).length = ((unix s).takeWhile p).length ∧
      NoBreak (s.take (s.takeWhile p).length) := by
  have hrun : NoBreak (s.takeWhile p) :=
    hp.noBreak fun b hb => List.all_eq_true.mp List.all_takeWhile b hb
  rw [take_length_takeWhile, hp.takeWhile_unix, hrun.unix_eq]
  exact ⟨rfl, hrun⟩

theorem Idle.unix {b : UInt8} {rest : Bytes} (h : Idle b rest) : Idle b (unix rest) where
  not_name := h.not_name
  not_hash := h.not_hash
  not_mark := h.not_mark
  slash_alone hb := by
    rw [Ne, Ne, head?_unix (by decide) (by decide), head?_unix (by decide) (by decide)]
    exact h.slash_alone hb
  single_dangling hb := literalLength?_unix_none (by decide) (by decide) (h.single_dangling hb)
  double_dangling hb := literalLength?_unix_none (by decide) (by decide) (h.double_dangling hb)
  dollar_alone hb := by
    rw [breakless_nameStart.head?_any]
    exact h.dollar_alone hb
  colon_alone hb := by
    rw [Ne, head?_unix (by decide) (by decide)]
    exact h.colon_alone hb
  minus_alone hb := by
    rw [Ne, head?_unix (by decide) (by decide)]
    exact h.minus_alone hb

/-- A lexeme that begins with another byte than a carriage return. -/
theorem Starts.of_ne {b : UInt8} {rest : Bytes} {kind : Kind} {n m : Nat}
    (hb : b ≠ carriageReturn) (hm : (unix (rest.take n)).length = m)
    (h : Starts b (unix rest) kind m) (hwhole : Whole (rest.take n) (rest.drop n)) :
    Starts (written b) (unix rest) kind (unix (rest.take n)).length ∧
      Whole (b :: rest.take n) (rest.drop n) := by
  rw [written_of_ne hb, hm]
  exact ⟨h, hwhole.cons hb⟩

/-- A lexeme is of the same kind afterwards, and it consists of the same bytes up
to the line ends in it. -/
theorem Starts.unix {b : UInt8} {rest : Bytes} {kind : Kind} {n : Nat}
    (h : Starts b rest kind n) (hd : ¬ Dropped b rest) :
    Starts (written b) (unix rest) kind (unix (rest.take n)).length ∧
      Whole (b :: rest.take n) (rest.drop n) := by
  cases h with
  | line rest =>
    have hslash := unix_of_ne (b := slash) (by decide)
    obtain ⟨hlength, hrun⟩ := breakless_line.run_unix rest
    apply Starts.of_ne (by decide) (m := lineLength (LineEnd.unix rest) + 1)
    · rw [List.take_succ_cons, hslash, List.length_cons, lineLength, hlength, lineLength]
    · rw [hslash]
      exact .line _
    · exact (hrun.whole_left _).cons (by decide)
  | block rest =>
    have hstar := unix_of_ne (b := star) (by decide)
    apply Starts.of_ne (by decide) (m := blockLength (LineEnd.unix rest) + 1)
    · rw [List.take_succ_cons, hstar, List.length_cons, blockLength_unix]
    · rw [hstar]
      exact .block _
    · exact (whole_block rest).cons (by decide)
  | hash =>
    obtain ⟨hlength, hrun⟩ := breakless_line.run_unix rest
    exact Starts.of_ne (by decide) hlength (.hash _) (hrun.whole_left _)
  | single h =>
    obtain ⟨hlength, hwhole⟩ := literalLength?_unix (by decide) (by decide) h
    exact Starts.of_ne (by decide) rfl (.single hlength) hwhole
  | double h =>
    obtain ⟨hlength, hwhole⟩ := literalLength?_unix (by decide) (by decide) h
    exact Starts.of_ne (by decide) rfl (.double hlength) hwhole
  | «variable» h =>
    obtain ⟨hlength, hrun⟩ := breakless_nameByte.run_unix rest
    rw [← breakless_nameStart.head?_any] at h
    exact Starts.of_ne (by decide) hlength (.variable h) (hrun.whole_left _)
  | identifier rest h =>
    obtain ⟨hlength, hrun⟩ := breakless_nameByte.run_unix rest
    have hb : NoBreak [b] := breakless_nameStart.noBreak (by simpa using h)
    exact Starts.of_ne (hb b (by simp)).1 hlength (.identifier _ h) (hrun.whole_left _)
  | static rest =>
    rw [unix_of_ne (by decide)]
    exact ⟨.static _, NoBreak.whole_left (s := [colon, colon]) (by decide) rest⟩
  | arrow rest =>
    rw [unix_of_ne (by decide)]
    exact ⟨.arrow _, NoBreak.whole_left (s := [minus, greater]) (by decide) rest⟩
  | mark rest h =>
    have hb : b ≠ carriageReturn := by
      rintro rfl
      exact absurd h (by decide)
    refine Starts.of_ne hb rfl (.mark _ h) fun hlast => ?_
    cases hlast
  | other h =>
    refine ⟨?_, fun hlast hhead => hd ⟨Option.some.inj hlast, hhead⟩⟩
    unfold written
    split
    · exact .other {}
    · exact .other (Idle.unix h)

end RenameServer.LineEnd
