import RenameServer.Source.Lexeme

/-!
Tokens are the names and marks that renaming looks at, with their byte offsets.
Comments and single-quoted literals have none; a double-quoted literal has the
variables that are interpolated into it.
-/
namespace RenameServer

open Utf8 (Bytes)

inductive Token.Kind where
  | variable
  | identifier
  | punct
  deriving Repr, DecidableEq

/-- A token holds its bytes, so its end follows from its start. -/
structure Token where
  kind : Token.Kind
  start : Nat
  value : Bytes
  deriving Repr, DecidableEq

namespace Token

def stop (t : Token) : Nat := t.start + t.value.length

/-- The text of a token. Bytes that are no character are replaced. -/
def name (t : Token) : String := Utf8.lossy t.value

/-- Variables inside a literal whose next byte is at `start` and follows
`previous`: a dollar sign and a name, unless a backslash stands right before. -/
def interpolated (start : Nat) (previous : UInt8) : Bytes → List Token
  | [] => []
  | b :: rest =>
    let more := interpolated (start + 1) b rest
    if b = Lexeme.dollar ∧ previous ≠ Lexeme.backslash ∧ rest.head?.any Lexeme.isNameStart then
      ⟨.variable, start, b :: rest.takeWhile Lexeme.isNameByte⟩ :: more
    else more

def ofLexeme (start : Nat) (l : Lexeme) : List Token :=
  match l.kind with
  | .comment | .single | .other => []
  | .double => interpolated start 0 l.bytes
  | .variable => [⟨.variable, start, l.bytes⟩]
  | .identifier => [⟨.identifier, start, l.bytes⟩]
  | .punct => [⟨.punct, start, l.bytes⟩]

/-- The tokens of lexemes of which the first starts at `start`. -/
def ofLexemes (start : Nat) : List Lexeme → List Token
  | [] => []
  | l :: rest => ofLexeme start l ++ ofLexemes (start + l.bytes.length) rest

/-- The tokens of a source, in order. -/
def scan (source : Bytes) : List Token := ofLexemes 0 (Lexeme.cut source)

def contains (t : Token) (offset : Int) : Bool := t.start ≤ offset ∧ offset < t.stop

/-- The token of a kind under an offset. A cursor just after the last byte of a
name is still on it, unless it is on the next one. -/
def at? (tokens : List Token) (offset : Int) (kind : Kind) : Option Token :=
  let candidates := tokens.filter fun t => t.kind = kind
  match candidates.find? fun t => t.contains offset with
  | some t => some t
  | none => (candidates.filter fun t => (t.stop : Int) = offset).getLast?

/-- The bytes with ASCII letters in lower case. -/
def lowerBytes (bytes : Bytes) : Bytes :=
  bytes.map fun b => if 0x41 ≤ b ∧ b ≤ 0x5a then b + 32 else b

end Token

end RenameServer
