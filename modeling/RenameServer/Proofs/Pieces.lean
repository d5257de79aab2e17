import Mathlib.Data.List.Forall2
import Mathlib.Data.List.TakeWhile
import RenameServer.Proofs.Framing

/-!
Frames that arrive in pieces. A frame carries a body if its headers give the
length of that body and nothing else follows, whether or not the body is a
message. Whole frames are read one after the other; of a frame that has not
arrived to its end nothing is read before the rest of it is there.
-/
namespace RenameServer.Frame

open Utf8 (Bytes)

variable {depth : Nat}

/-- The headers of a frame are complete and state the length of what follows. -/
def Carries (frame body : Bytes) : Prop :=
  ∃ text, readHeaders false none frame = .complete (some text) body ∧
    Integer.ofText text = .ok body.length

/-- What reading gives where a body is followed by other bytes. -/
def Outcome.ofBody (depth : Nat) (body rest : Bytes) : Outcome :=
  match parseBody depth body with
  | .error f => .fault f rest
  | .ok value => .message value rest

theorem ne_empty_of_ofText {text : String} {n : Int} (h : Integer.ofText text = .ok n) :
    text ≠ "" := by
  rintro rfl
  cases h

/-- A carried body is read whatever follows it. -/
theorem Carries.read_append {frame body : Bytes} (h : Carries frame body) (closed : Bool)
    (rest : Bytes) : read depth closed (frame ++ rest) = .ofBody depth body rest := by
  obtain ⟨text, hheaders, hlength⟩ := h
  rw [read, readHeaders_append hheaders closed rest]
  simp only [if_neg (ne_empty_of_ofText hlength), hlength]
  rw [readBody, if_neg (by omega), if_neg (by rw [List.length_append]; omega), Int.toNat_natCast,
    List.take_left, List.drop_left]
  rfl

/-! ### A frame that is not all there -/

/-- The start of some bytes holds their first line, or only a part of it. -/
theorem line_of_append {part more rest : Bytes} {b : UInt8}
    (h : (part ++ more).dropWhile (· ≠ lineFeed) = b :: rest) :
    (part.dropWhile (· ≠ lineFeed) = [] ∧
        part.takeWhile (· ≠ lineFeed) <+: (part ++ more).takeWhile (· ≠ lineFeed)) ∨
      ∃ left, part.dropWhile (· ≠ lineFeed) = b :: left ∧ rest = left ++ more ∧
        part.takeWhile (· ≠ lineFeed) = (part ++ more).takeWhile (· ≠ lineFeed) := by
  cases hpart : part.dropWhile (· ≠ lineFeed) with
  | nil =>
    have hall := List.dropWhile_eq_nil_iff.mp hpart
    rw [List.takeWhile_append_of_pos hall, List.takeWhile_eq_self_iff.mpr hall]
    exact .inl ⟨rfl, List.prefix_append _ _⟩
  | cons c left =>
    obtain ⟨htake, hdrop⟩ := line_append hpart more
    obtain ⟨rfl, rfl⟩ := List.cons.inj (hdrop.symm.trans h)
    exact .inr ⟨left, rfl, rfl, htake.symm⟩

theorem readHeaders_waiting {part : Bytes} (h : part.dropWhile (· ≠ lineFeed) = [])
    (hlimit : ¬ lineLimit < (part.takeWhile (· ≠ lineFeed)).length) (known : Option String) :
    readHeaders false known part = .waiting := by
  rw [readHeaders]
  split
  · simp only [if_neg hlimit]
    rfl
  · next hcons => cases h.symm.trans hcons

/-- Of headers that are complete later, a part waits or is complete already. -/
theorem readHeaders_part {known length : Option String} {bytes part more body : Bytes}
    (h : readHeaders false known bytes = .complete length body) (hbytes : part ++ more = bytes) :
    readHeaders false known part = .waiting ∨
      ∃ left, readHeaders false known part = .complete length left ∧ body = left ++ more := by
  fun_induction readHeaders false known bytes generalizing part with
  | case1 | case2 | case3 | case4 | case5 | case6 | case7 | case8 => simp_all
  | case9 known bytes line b rest found hlimit text htext stripped =>
    rename_i hblank
    subst hbytes
    obtain ⟨rfl, rfl⟩ := Headers.complete.inj h
    rcases line_of_append found with ⟨hnil, hprefix⟩ | ⟨left, hcons, rfl, hline⟩
    · have hshort : ¬ lineLimit < (part.takeWhile (· ≠ lineFeed)).length := fun hlt =>
        hlimit (Nat.lt_of_lt_of_le hlt hprefix.length_le)
      exact .inl (readHeaders_waiting hnil hshort known)
    · refine .inr ⟨left, ?_, rfl⟩
      rw [readHeaders_line hcons (by rwa [hline]) (by rwa [hline]), if_pos hblank]
  | case10 known bytes line b rest found hlimit text htext stripped hblank =>
    rename_i ih
    subst hbytes
    rcases line_of_append found with ⟨hnil, hprefix⟩ | ⟨left, hcons, rfl, hline⟩
    · have hshort : ¬ lineLimit < (part.takeWhile (· ≠ lineFeed)).length := fun hlt =>
        hlimit (Nat.lt_of_lt_of_le hlt hprefix.length_le)
      exact .inl (readHeaders_waiting hnil hshort known)
    · rw [readHeaders_line hcons (by rwa [hline]) (by rwa [hline]), if_neg hblank]
      exact ih h rfl

/-- Nothing is read of a frame before it is all there. -/
theorem Carries.read_part {part more body : Bytes} (h : Carries (part ++ more) body)
    (hmore : more ≠ []) : read depth false part = .waiting := by
  obtain ⟨text, hheaders, hlength⟩ := h
  rw [read]
  rcases readHeaders_part hheaders rfl with hwait | ⟨left, hcomplete, rfl⟩
  · rw [hwait]
  · have hlt : left.length < (left ++ more).length := by
      rw [List.length_append]
      exact Nat.lt_add_of_pos_right (List.length_pos_iff.mpr hmore)
    rw [hcomplete]
    simp only [if_neg (ne_empty_of_ofText hlength), hlength]
    rw [readBody, if_neg (by omega), if_pos (by omega)]
    rfl

/-! ### Frames cut into pieces -/

/-- What has arrived of frames that follow each other: whole frames, and a part of
the next one. -/
structure Split (frames : List Bytes) (arrived more : Bytes) where
  whole : List Bytes
  part : Bytes
  later : List Bytes
  frames_eq : frames = whole ++ later
  arrived_eq : arrived = whole.flatten ++ part
  more_eq : part ++ more = later.flatten
  short : ∀ frame ∈ later.head?, part.length < frame.length

theorem exists_split {frames : List Bytes} {arrived more : Bytes}
    (h : arrived ++ more = frames.flatten) : Nonempty (Split frames arrived more) := by
  induction frames generalizing arrived with
  | nil => exact ⟨⟨[], arrived, [], rfl, rfl, h, by simp⟩⟩
  | cons frame frames ih =>
    rw [List.flatten_cons] at h
    rcases Nat.lt_or_ge arrived.length frame.length with hlt | hge
    · refine ⟨⟨[], arrived, frame :: frames, rfl, rfl, h, ?_⟩⟩
      rintro f ⟨⟩
      exact hlt
    · obtain ⟨left, rfl⟩ : frame <+: arrived :=
        List.prefix_of_prefix_length_le (List.prefix_append frame _) ⟨more, h⟩ hge
      rw [List.append_assoc] at h
      obtain ⟨split⟩ := ih (List.append_cancel_left h)
      refine ⟨⟨frame :: split.whole, split.part, split.later, ?_, ?_, split.more_eq, split.short⟩⟩
      · rw [List.cons_append, ← split.frames_eq]
      · rw [List.flatten_cons, List.append_assoc, ← split.arrived_eq]

/-- A part of the next frame waits for the rest of it. -/
theorem read_part {later bodies : List Bytes} {part more : Bytes}
    (hlater : List.Forall₂ Carries later bodies) (hmore : part ++ more = later.flatten)
    (hshort : ∀ frame ∈ later.head?, part.length < frame.length) :
    read depth false part = .waiting := by
  cases hlater with
  | nil =>
    rw [(List.append_eq_nil_iff.mp hmore).1]
    exact read_nil depth false
  | @cons frame body later bodies hframe =>
    have hlt := hshort frame rfl
    obtain ⟨rest, rfl⟩ : part <+: frame :=
      List.prefix_of_prefix_length_le ⟨more, hmore⟩ (List.prefix_append _ _) (Nat.le_of_lt hlt)
    refine hframe.read_part ?_
    rintro rfl
    simp at hlt

end RenameServer.Frame
