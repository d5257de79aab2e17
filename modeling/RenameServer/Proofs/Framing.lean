import RenameServer.Frame

/-!
A message that is complete stays complete. What a reader has taken in as one
message it takes in as the same message when more bytes have arrived behind it,
and whether the input is closed makes no difference. So frames can be read one
by one from their concatenation.
-/
namespace RenameServer.Frame

open Utf8 (Bytes)

variable {depth : Nat}

/-- One header line that ends within the bytes. -/
theorem readHeaders_line {bytes rest : Bytes} {b : UInt8} {text : List Char}
    (hrest : bytes.dropWhile (· ≠ lineFeed) = b :: rest)
    (hlimit : ¬ lineLimit < (bytes.takeWhile (· ≠ lineFeed)).length)
    (htext : asciiText (bytes.takeWhile (· ≠ lineFeed)) = .ok text)
    (closed : Bool) (known : Option String) :
    readHeaders closed known bytes =
      if Text.strip Text.isHeaderBlank text = [] then .complete known rest
      else readHeaders closed (lengthAfter known (Text.strip Text.isHeaderBlank text)) rest := by
  rw [readHeaders]
  split
  · next hnone => cases hrest.symm.trans hnone
  · next hsome =>
    obtain ⟨rfl, rfl⟩ := List.cons.inj (hrest.symm.trans hsome)
    simp only [hlimit, htext, if_false]

theorem line_append {bytes rest : Bytes} {b : UInt8}
    (h : bytes.dropWhile (· ≠ lineFeed) = b :: rest) (more : Bytes) :
    (bytes ++ more).takeWhile (· ≠ lineFeed) = bytes.takeWhile (· ≠ lineFeed) ∧
      (bytes ++ more).dropWhile (· ≠ lineFeed) = b :: (rest ++ more) := by
  have hlength := congrArg List.length
    (List.takeWhile_append_dropWhile (p := (· ≠ lineFeed)) (l := bytes))
  rw [h, List.length_append, List.length_cons] at hlength
  constructor
  · rw [List.takeWhile_append, if_neg (by omega)]
  · rw [List.dropWhile_append, h]
    rfl

theorem readHeaders_append {known length : Option String} {bytes rest : Bytes}
    (h : readHeaders false known bytes = .complete length rest) (closed : Bool) (more : Bytes) :
    readHeaders closed known (bytes ++ more) = .complete length (rest ++ more) := by
  fun_induction readHeaders false known bytes with
  | case1 | case2 | case3 | case4 | case5 | case6 | case7 | case8 => simp_all
  | case9 known bytes line b rest' found hlimit text htext stripped hblank =>
    obtain ⟨hline, hmore⟩ := line_append found more
    rw [readHeaders_line hmore (by rwa [hline]) (by rwa [hline]), if_pos hblank]
    obtain ⟨rfl, rfl⟩ := Headers.complete.inj h
    rfl
  | case10 known bytes line b rest' found hlimit text htext stripped hblank ih =>
    obtain ⟨hline, hmore⟩ := line_append found more
    rw [readHeaders_line hmore (by rwa [hline]) (by rwa [hline]), if_neg hblank]
    exact ih h

theorem readBody_append {length : Int} {bytes rest : Bytes} {value : Json}
    (h : readBody depth false length bytes = .message value rest) (closed : Bool) (more : Bytes) :
    readBody depth closed length (bytes ++ more) = .message value (rest ++ more) := by
  rw [readBody] at h
  split at h
  · cases h
  split at h
  · cases h
  next hpos hlength =>
    split at h
    · cases h
    next hparse =>
      obtain ⟨rfl, rfl⟩ := Outcome.message.inj h
      have hle : length.toNat ≤ bytes.length := by omega
      rw [readBody, if_neg hpos, if_neg (by rw [List.length_append]; omega),
        List.take_append_of_le_length hle, List.drop_append_of_le_length hle, hparse]

/-- A message is read the same way whatever follows it. -/
theorem read_append {bytes rest : Bytes} {value : Json}
    (h : read depth false bytes = .message value rest) (closed : Bool) (more : Bytes) :
    read depth closed (bytes ++ more) = .message value (rest ++ more) := by
  rw [read] at h
  split at h
  · cases h
  · cases h
  · cases h
  · cases h
  next text body hheaders =>
    rw [read, readHeaders_append hheaders closed more]
    by_cases hempty : text = ""
    · simp [hempty] at h
    simp only [if_neg hempty] at h ⊢
    cases hlength : Integer.ofText text with
    | error refusal => simp [hlength] at h
    | ok length =>
      simp only [hlength] at h ⊢
      exact readBody_append h closed more

/-- Bytes that are read as one message and nothing more. -/
def Holds (depth : Nat) (frame : Bytes) (message : Json) : Prop :=
  read depth false frame = .message message []

theorem Holds.read_append {frame : Bytes} {message : Json} (h : Holds depth frame message)
    (closed : Bool) (rest : Bytes) : read depth closed (frame ++ rest) = .message message rest :=
  Frame.read_append h closed rest

/-- Where no bytes are left, a reader waits or sees the end. -/
theorem read_nil (depth : Nat) (closed : Bool) :
    read depth closed [] = if closed then .none [] else .waiting := by
  rw [read, readHeaders]
  cases closed <;> rfl

end RenameServer.Frame
