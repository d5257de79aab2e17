import Mathlib.Order.Basic
import RenameServer.Proofs.Canonical
import RenameServer.Proofs.Neighbours

/-!
Conversions keep the order. Positions are ordered by line, then by column. The
text before an offset begins with the text before any earlier one, so its
position is not earlier; a later position is on a later line, or spans more of
the same one. So the ends of a range stay in order, and ranges that do not overlap
have no position in common.
-/
namespace RenameServer

namespace Position

/-- Positions are ordered by line, then by column. -/
instance : PartialOrder Position where
  le p q := p.line < q.line ∨ p.line = q.line ∧ p.character ≤ q.character
  le_refl p := .inr ⟨rfl, Int.le_refl _⟩
  le_trans p q r hpq hqr := by omega
  le_antisymm p q hpq hqp := by
    obtain ⟨line, character⟩ := p
    obtain ⟨line', character'⟩ := q
    dsimp only at hpq hqp
    obtain rfl : line = line' := by omega
    obtain rfl : character = character' := by omega
    rfl

theorem le_iff {p q : Position} :
    p ≤ q ↔ p.line < q.line ∨ p.line = q.line ∧ p.character ≤ q.character :=
  Iff.rfl

theorem natCast_le_iff {line column line' column' : Nat} :
    (⟨line, column⟩ : Position) ≤ ⟨line', column'⟩ ↔
      line < line' ∨ line = line' ∧ column ≤ column' := by
  rw [le_iff]
  dsimp only
  omega

/-! ### Offsets to positions -/

theorem NoSplit.spot_le {p z : List Char} (h : NoSplit p z) :
    (⟨(spot p).1, (spot p).2⟩ : Position) ≤ ⟨(spot (p ++ z)).1, (spot (p ++ z)).2⟩ := by
  rw [spot_append p z h, natCast_le_iff]
  split_ifs with hline
  · exact .inr ⟨rfl, Nat.le_add_right ..⟩
  · exact .inl (Nat.lt_add_of_pos_right (Nat.pos_of_ne_zero hline))

/-- A text that goes on does not end earlier. -/
theorem spot_le_append (p z : List Char) :
    (⟨(spot p).1, (spot p).2⟩ : Position) ≤ ⟨(spot (p ++ z)).1, (spot (p ++ z)).2⟩ := by
  by_cases h : NoSplit p z
  · exact h.spot_le
  · -- the text goes on inside a CRLF, and the line has ended before the LF
    rw [NoSplit, Classical.not_imp, not_not] at h
    obtain ⟨q, rfl⟩ := List.getLast?_eq_some_iff.mp h.1
    obtain ⟨y, rfl⟩ := List.head?_eq_some_iff.mp h.2
    have hle := (noSplit_crlf q y).spot_le
    rw [spot_crlf, List.append_assoc] at hle
    rw [spot_return, List.append_assoc]
    exact hle

/-- The text before an offset begins with the text before an earlier one. -/
theorem isPrefix_of_le {p x q y : List Char} {j k : Nat} (h : p ++ x = q ++ y)
    (hk : Inside k y) (hle : byteLength p + j ≤ byteLength q + k) : p <+: q := by
  rcases List.append_eq_append_iff.mp h with ⟨m, rfl, -⟩ | ⟨m, rfl, rfl⟩
  · exact List.prefix_append p m
  · cases m with
    | nil => exact ⟨[], by simp⟩
    | cons c m =>
      have hsize : k < c.utf8Size := hk
      rw [byteLength_append, byteLength_cons] at hle
      omega

/-- A later offset has no earlier position. Past the end it is the end. -/
theorem locate_mono (text : String) {o o' : Nat} (h : o ≤ o') :
    (LineIndex.ofText text).locate (min o (LineIndex.ofText text).bytes.length) ≤
      (LineIndex.ofText text).locate (min o' (LineIndex.ofText text).bytes.length) := by
  obtain ⟨chars, rfl⟩ : ∃ chars, text = String.ofList chars := ⟨text.toList, by simp⟩
  rw [LineIndex.bytes_ofText, ← byteLength_eq]
  obtain ⟨p, x, j, hp, -, ho, hposition⟩ := exists_before chars (Nat.min_le_right o _)
  obtain ⟨q, y, k, hq, hk, ho', hposition'⟩ := exists_before chars (Nat.min_le_right o' _)
  have hle : byteLength p + j ≤ byteLength q + k := by omega
  obtain ⟨z, rfl⟩ := isPrefix_of_le (hp.symm.trans hq) hk hle
  rw [hposition, hposition']
  exact spot_le_append p z

/-! ### Positions to offsets -/

theorem columnBytes_mono (line : List Char) {units units' : Nat} (h : units ≤ units') :
    columnBytes units line ≤ columnBytes units' line := by
  induction line generalizing units units' with
  | nil => exact Nat.le_refl 0
  | cons c rest ih =>
    rw [columnBytes, columnBytes]
    by_cases hwidth : width c ≤ units
    · rw [if_pos hwidth, if_pos (Nat.le_trans hwidth h)]
      exact Nat.add_le_add_left (ih (Nat.sub_le_sub_right h _)) _
    · rw [if_neg hwidth]
      exact Nat.zero_le _

theorem byteLength_content_le (line : List Char) : byteLength (content line) ≤ byteLength line := by
  conv => rhs; rw [← List.takeWhile_append_dropWhile (p := fun c => c ≠ '\r' ∧ c ≠ '\n') (l := line)]
  rw [byteLength_append]
  exact Nat.le_add_right ..

/-- A place on a line is before every place on a later one. -/
theorem offsetIn_mono (ls : List (List Char)) {line column line' column' : Nat}
    (h : line < line' ∨ line = line' ∧ column ≤ column') :
    offsetIn line column ls ≤ offsetIn line' column' ls := by
  induction ls generalizing line line' with
  | nil => rw [offsetIn, offsetIn]
  | cons l more ih =>
    cases line with
    | zero =>
      cases line' with
      | zero => exact columnBytes_mono (content l) (by omega)
      | succ n' =>
        calc
          columnBytes column (content l) ≤ byteLength (content l) := columnBytes_le ..
          _ ≤ byteLength l := byteLength_content_le l
          _ ≤ byteLength l + offsetIn n' column' more := Nat.le_add_right ..
    | succ n =>
      obtain ⟨n', rfl⟩ : ∃ n', line' = n' + 1 := ⟨line' - 1, by omega⟩
      exact Nat.add_le_add_left (ih (by omega)) _

/-- A later position has no earlier offset. -/
theorem toOffset_mono (text : String) {p p' : Position} (hline : 0 ≤ p.line)
    (hcharacter : 0 ≤ p.character) (hcharacter' : 0 ≤ p'.character) (h : p ≤ p') :
    ∃ o o', p.toOffset text = .ok o ∧ p'.toOffset text = .ok o' ∧ o ≤ o' := by
  rw [le_iff] at h
  exact ⟨_, _, if_neg (by omega), if_neg (by omega), offsetIn_mono _ (by omega)⟩

end Position

open Position

/-- A position that a range has: not before its start, and before its end. -/
def PositionRange.Holds (r : PositionRange) (p : Position) : Prop := r.start ≤ p ∧ p < r.stop

/-- A range that stops before another one starts has no position in common with it. -/
theorem PositionRange.Holds.not_of_le {r s : PositionRange} {p : Position} (h : r.Holds p)
    (hle : r.stop ≤ s.start) : ¬ s.Holds p :=
  fun hs => lt_irrefl p (h.2.trans_le (hle.trans hs.1))

/-- Both conversions keep the order. A range of bytes is converted to a range that does
not stop before it starts, and two ranges that do not overlap are converted to ranges
without a common position. -/
theorem conversions_monotone (text : String) :
    (∀ o o' : Nat, o ≤ o' →
      ∃ p p', ofOffset o text = .ok p ∧ ofOffset o' text = .ok p' ∧ p ≤ p') ∧
    (∀ p p' : Position, 0 ≤ p.line → 0 ≤ p.character → 0 ≤ p'.line → 0 ≤ p'.character → p ≤ p' →
      ∃ o o', p.toOffset text = .ok o ∧ p'.toOffset text = .ok o' ∧ o ≤ o') ∧
    (∀ r : ByteRange, ∃ r', PositionRange.ofBytes r text = .ok r' ∧ r'.start ≤ r'.stop) ∧
    ∀ r s : ByteRange, r.overlaps s = false →
      ∃ r' s', PositionRange.ofBytes r text = .ok r' ∧ PositionRange.ofBytes s text = .ok s' ∧
        ∀ p, ¬(r'.Holds p ∧ s'.Holds p) := by
  refine ⟨fun o o' h => ?_, fun p p' hline hcharacter _ hcharacter' h => ?_, fun r => ?_,
    fun r s h => ?_⟩
  · exact ⟨_, _, ofOffset_eq o text, ofOffset_eq o' text, locate_mono text h⟩
  · exact toOffset_mono text hline hcharacter hcharacter' h
  · exact ⟨_, PositionRange.ofBytes_eq r text, locate_mono text r.start_le_stop⟩
  · refine ⟨_, _, PositionRange.ofBytes_eq r text, PositionRange.ofBytes_eq s text, ?_⟩
    rintro p ⟨hr, hs⟩
    rcases ByteRange.overlaps_eq_false_iff.mp h with hbefore | hbefore
    · exact absurd hs (hr.not_of_le (locate_mono text hbefore.1))
    · exact absurd hr (hs.not_of_le (locate_mono text hbefore.1))

end RenameServer
