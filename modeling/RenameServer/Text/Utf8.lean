/-!
UTF-8 as lists of bytes. Encoding concatenates the bytes of the characters.
Decoding reads one character at a time; where the bytes are malformed it takes
the longest part that could still have begun a character, so that a lossy
reader writes one replacement character for each such part and a strict reader
can say where and why it stopped.
-/
namespace RenameServer.Utf8

abbrev Bytes := List UInt8

def encode (text : String) : Bytes :=
  text.toList.flatMap String.utf8EncodeChar

/-- Why some bytes begin no character. -/
inductive Reason where
  | start
  | continuation
  | truncated
  deriving Repr, DecidableEq

/-- What a lead byte promises: how many bytes follow, the bounds of the first
of them, and the bits of the character that it holds itself. -/
structure Lead where
  following : Nat
  low : UInt8
  high : UInt8
  bits : Nat

def lead? (b : UInt8) : Option Lead :=
  if b < 0x80 then some ⟨0, 0x80, 0xbf, b.toNat⟩
  else if b < 0xc2 then none
  else if b < 0xe0 then some ⟨1, 0x80, 0xbf, b.toNat - 0xc0⟩
  else if b = 0xe0 then some ⟨2, 0xa0, 0xbf, 0⟩
  else if b = 0xed then some ⟨2, 0x80, 0x9f, 0xd⟩
  else if b < 0xf0 then some ⟨2, 0x80, 0xbf, b.toNat - 0xe0⟩
  else if b = 0xf0 then some ⟨3, 0x90, 0xbf, 0⟩
  else if b < 0xf4 then some ⟨3, 0x80, 0xbf, b.toNat - 0xf0⟩
  else if b = 0xf4 then some ⟨3, 0x80, 0x8f, 4⟩
  else none

/-- A decoded unit: the character or the reason there is none, and the number
of bytes after the first that belong to it. -/
structure Decoded where
  extra : Nat
  value : Except Reason Char

/-- Read `need` more bytes, the next one between `low` and `high`. -/
def tail (need : Nat) (low high : UInt8) (bits taken : Nat) (rest : Bytes) : Decoded :=
  match need, rest with
  | 0, _ => ⟨taken, .ok (Char.ofNat bits)⟩
  | _ + 1, [] => ⟨taken, .error .truncated⟩
  | n + 1, b :: rest =>
    if low ≤ b ∧ b ≤ high then
      tail n 0x80 0xbf (bits * 64 + (b.toNat - 0x80)) (taken + 1) rest
    else ⟨taken, .error .continuation⟩

def unit (b : UInt8) (rest : Bytes) : Decoded :=
  match lead? b with
  | none => ⟨0, .error .start⟩
  | some l => tail l.following l.low l.high l.bits 0 rest

/-- The character written for a malformed part. -/
def replacement : Char := '�'

/-- Decode with one replacement character for each malformed part. -/
def decodeLossy : Bytes → List Char
  | [] => []
  | b :: rest =>
    let u := unit b rest
    (match u.value with
      | .ok c => c
      | .error _ => replacement) :: decodeLossy (rest.drop u.extra)
termination_by bytes => bytes.length
decreasing_by
  simp only [List.length_drop, List.length_cons]
  omega

/-- The first malformed part: its bytes, where it starts, and the reason. -/
structure Malformed where
  position : Nat
  bytes : Bytes
  reason : Reason
  deriving Repr, DecidableEq

/-- Decode strictly, counting positions from `position`. -/
def decodeFrom (position : Nat) : Bytes → Except Malformed (List Char)
  | [] => .ok []
  | b :: rest =>
    let u := unit b rest
    match u.value with
    | .ok c => (decodeFrom (position + 1 + u.extra) (rest.drop u.extra)).map (c :: ·)
    | .error reason => .error ⟨position, b :: rest.take u.extra, reason⟩
termination_by bytes => bytes.length
decreasing_by
  simp only [List.length_drop, List.length_cons]
  omega

def decode (bytes : Bytes) : Except Malformed String :=
  (decodeFrom 0 bytes).map String.ofList

/-- The text of a name or of a percent-encoded run. -/
def lossy (bytes : Bytes) : String := String.ofList (decodeLossy bytes)

end RenameServer.Utf8
