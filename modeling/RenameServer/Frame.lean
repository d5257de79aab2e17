import RenameServer.Json.Access
import RenameServer.Json.Writing

/-!
Framing of messages: header lines, a blank line, and a body whose length in
bytes the headers give. Headers other than the length do not matter, and of
several lengths the last counts. No header line may be longer than a limit. The
value of a body may be nested so deep only, both in reading and in writing.
Reading works on what has arrived so far, and says when it has to wait for more.
-/
namespace RenameServer.Frame

open Utf8 (Bytes)

def lineFeed : UInt8 := 0x0a

/-- A body with a header that states its length. -/
def wrap (body : Bytes) : Bytes :=
  Utf8.encode s!"Content-Length: {body.length}\r\n\r\n" ++ body

/-- The frame of a message that can be written and encoded. -/
def encode (depth : Nat) (message : Json) : Except Fault Bytes := do
  match ← message.written depth with
  | .plain text => return wrap (Utf8.encode text)
  | .ragged r => throw (.ofRagged r)

/-- The outcome of reading one message. -/
inductive Outcome where
  /-- More bytes are needed. -/
  | waiting
  /-- There is no further message. -/
  | none (rest : Bytes)
  | message (value : Json) (rest : Bytes)
  | fault (fault : Fault) (rest : Bytes)
  deriving Repr

/-- A header line as text; it has to be ASCII. -/
def asciiText (line : Bytes) : Except Fault (List Char) :=
  match line.findIdx? fun b => 0x80 ≤ b with
  | some i => .error (.malformedHeader i (line.getD i 0))
  | Option.none => .ok (line.map fun b => Char.ofNat b.toNat)

/-- The key in lower case and the value of a header, both stripped. -/
def header? (line : List Char) : Option (String × String) :=
  match line.dropWhile (· ≠ ':') with
  | [] => Option.none
  | _ :: value =>
    let key := Text.strip Text.isHeaderBlank (line.takeWhile (· ≠ ':'))
    some (String.ofList (key.map Text.lowerAscii),
      String.ofList (Text.strip Text.isHeaderBlank value))

/-- What a header line says about the length, after what was known before. -/
def lengthAfter (before : Option String) (line : List Char) : Option String :=
  match header? line with
  | some (key, value) => if key = "content-length" then some value else before
  | Option.none => before

/-- The most bytes that a header line may have before its line feed. -/
def lineLimit : Nat := 65536

/-- The headers are complete, or reading stops before they are. -/
inductive Headers where
  | waiting
  | none
  | complete (length : Option String) (rest : Bytes)
  | fault (fault : Fault) (rest : Bytes)

theorem length_lt_of_dropWhile {bytes rest : Bytes} {b : UInt8}
    (h : bytes.dropWhile (· ≠ lineFeed) = b :: rest) : rest.length < bytes.length := by
  have := (List.dropWhile_suffix (l := bytes) (· ≠ lineFeed)).length_le
  rw [h, List.length_cons] at this
  omega

/-- Read header lines through the blank one. `closed` says that no bytes will
follow those that are here. -/
def readHeaders (closed : Bool) (length : Option String) (bytes : Bytes) : Headers :=
  let line := bytes.takeWhile (· ≠ lineFeed)
  match _h : bytes.dropWhile (· ≠ lineFeed) with
  | [] =>
    if lineLimit < line.length then .fault (.longLine false) []
    else if !closed then .waiting
    else if line = [] then .none
    else
      match asciiText line with
      | .error fault => .fault fault []
      | .ok text =>
        let text := Text.strip Text.isHeaderBlank text
        if text = [] then .complete length [] else .none
  | _ :: rest =>
    if lineLimit < line.length then .fault (.longLine true) rest
    else
      match asciiText line with
      | .error fault => .fault fault rest
      | .ok text =>
        let text := Text.strip Text.isHeaderBlank text
        if text = [] then .complete length rest
        else readHeaders closed (lengthAfter length text) rest
termination_by bytes.length
decreasing_by exact length_lt_of_dropWhile _h

/-- The value of a body. -/
def parseBody (depth : Nat) (body : Bytes) : Except Fault Json :=
  match Utf8.decode body with
  | .error part => .error (.malformedText part)
  | .ok text =>
    match Json.ofText depth text with
    | .error refused => .error (.refusedJson refused)
    | .ok value => .ok value

/-- Read a body of a given length. -/
def readBody (depth : Nat) (closed : Bool) (length : Int) (bytes : Bytes) : Outcome :=
  if length < 0 then .fault .negativeLength bytes
  else if (bytes.length : Int) < length then
    if closed then .fault (.shortBody bytes.length length.toNat) [] else .waiting
  else
    let rest := bytes.drop length.toNat
    match parseBody depth (bytes.take length.toNat) with
    | .error fault => .fault fault rest
    | .ok value => .message value rest

/-- Read one message from the bytes that are here. -/
def read (depth : Nat) (closed : Bool) (bytes : Bytes) : Outcome :=
  match readHeaders closed Option.none bytes with
  | .waiting => .waiting
  | .none => .none []
  | .fault fault rest => .fault fault rest
  | .complete Option.none rest => .none rest
  | .complete (some text) rest =>
    if text = "" then .none rest
    else
      match Integer.ofText text with
      | .error refusal => .fault (.badInteger text refusal) rest
      | .ok length => readBody depth closed length rest

/-- How many bytes to wait for before reading again: the rest of a body, or one
more byte of the headers. -/
def wanted (bytes : Bytes) : Nat :=
  match readHeaders false Option.none bytes with
  | .complete (some text) rest =>
    match Integer.ofText text with
    | .ok length => max 1 (length.toNat - rest.length)
    | .error _ => 1
  | _ => 1

/-- Headers take at least one byte. -/
theorem readHeaders_rest_lt {closed : Bool} {known length : Option String} {bytes rest : Bytes}
    (h : readHeaders closed known bytes = .complete length rest) :
    rest.length < bytes.length := by
  fun_induction readHeaders closed known bytes with
  | case1 | case2 | case3 | case4 | case6 | case7 | case8 => simp_all
  | case5 known bytes line _ _ _ blank text _ _ _ =>
    have hne : bytes ≠ [] := by
      rintro rfl
      simp [line] at blank
    simp only [Headers.complete.injEq] at h
    simpa [← h.2] using List.length_pos_iff.mpr hne
  | case9 known bytes line b rest' found _ text _ _ _ =>
    simp only [Headers.complete.injEq] at h
    exact h.2 ▸ length_lt_of_dropWhile found
  | case10 known bytes line b rest' found _ text _ _ _ ih =>
    exact Nat.lt_trans (ih h) (length_lt_of_dropWhile found)

/-- A message takes at least one byte, so reading one after the other ends. -/
theorem read_rest_lt {depth : Nat} {closed : Bool} {bytes rest : Bytes} {value : Json}
    (h : read depth closed bytes = .message value rest) : rest.length < bytes.length := by
  unfold read at h
  split at h <;> try contradiction
  rename_i text more headers
  have shorter := readHeaders_rest_lt headers
  split at h <;> try contradiction
  split at h <;> try contradiction
  rename_i length _
  unfold readBody at h
  split at h <;> try contradiction
  split at h
  · split at h <;> contradiction
  · split at h <;> try contradiction
    simp only [Outcome.message.injEq] at h
    rw [← h.2, List.length_drop]
    omega

end RenameServer.Frame
