import RenameServer.Text.Utf8

/-!
A source is cut from left to right into lexemes: comments, quoted literals,
variables, identifiers, the punctuation that the library looks at, and single
bytes of no interest. Every byte belongs to exactly one lexeme, so the lexemes
in order are the source again. Only the next bytes decide where a lexeme ends.
-/
namespace RenameServer

open Utf8 (Bytes)

inductive Lexeme.Kind where
  | comment
  | single
  | double
  | variable
  | identifier
  | punct
  | other
  deriving Repr, DecidableEq

structure Lexeme where
  kind : Lexeme.Kind
  bytes : Bytes
  deriving Repr, DecidableEq

namespace Lexeme

/-- A byte of a name that may also be its first: a letter, an underscore, or a
byte above ASCII. -/
def isNameStart (b : UInt8) : Bool :=
  (0x41 ≤ b ∧ b ≤ 0x5a) ∨ b = 0x5f ∨ (0x61 ≤ b ∧ b ≤ 0x7a) ∨ 0x80 ≤ b

def isNameByte (b : UInt8) : Bool :=
  isNameStart b ∨ (0x30 ≤ b ∧ b ≤ 0x39)

def slash : UInt8 := 0x2f
def star : UInt8 := 0x2a
def hash : UInt8 := 0x23
def singleQuote : UInt8 := 0x27
def doubleQuote : UInt8 := 0x22
def backslash : UInt8 := 0x5c
def dollar : UInt8 := 0x24
def colon : UInt8 := 0x3a
def minus : UInt8 := 0x2d
def greater : UInt8 := 0x3e
def openBrace : UInt8 := 0x7b
def closeBrace : UInt8 := 0x7d
def semicolon : UInt8 := 0x3b
def carriageReturn : UInt8 := 0x0d
def lineFeed : UInt8 := 0x0a

/-- The name bytes at the start of the rest. -/
def nameLength (rest : Bytes) : Nat := (rest.takeWhile isNameByte).length

/-- A line comment runs to before the end of the line. -/
def lineLength (rest : Bytes) : Nat :=
  (rest.takeWhile fun b => b ≠ carriageReturn ∧ b ≠ lineFeed).length

/-- A block comment runs through the first closing mark, or to the end. -/
def blockLength : Bytes → Nat
  | [] => 0
  | b :: rest =>
    if b = star ∧ rest.head? = some slash then 2 else blockLength rest + 1

/-- The bytes of a literal after its opening quote. It ends after the same quote
or with the source; a backslash takes the next byte with it, and a backslash
that is the last byte of the source leaves no literal. -/
def literalLength? (quote : UInt8) : Bytes → Option Nat
  | [] => some 0
  | [b] => if b = quote then some 1 else if b = backslash then none else some 1
  | b :: c :: rest =>
    if b = quote then some 1
    else if b = backslash then (literalLength? quote rest).map (· + 2)
    else (literalLength? quote (c :: rest)).map (· + 1)

/-- The kind of the lexeme that starts with `b`, and the number of bytes of
`rest` that belong to it. -/
def extent (b : UInt8) (rest : Bytes) : Kind × Nat :=
  if b = slash then
    match rest with
    | c :: rest =>
      if c = slash then (.comment, lineLength rest + 1)
      else if c = star then (.comment, blockLength rest + 1)
      else (.other, 0)
    | [] => (.other, 0)
  else if b = hash then (.comment, lineLength rest)
  else if b = singleQuote then
    match literalLength? singleQuote rest with
    | some n => (.single, n)
    | none => (.other, 0)
  else if b = doubleQuote then
    match literalLength? doubleQuote rest with
    | some n => (.double, n)
    | none => (.other, 0)
  else if b = dollar then
    match rest with
    | c :: _ => if isNameStart c then (.variable, nameLength rest) else (.other, 0)
    | [] => (.other, 0)
  else if isNameStart b then (.identifier, nameLength rest)
  else if b = colon ∧ rest.head? = some colon then (.punct, 1)
  else if b = minus ∧ rest.head? = some greater then (.punct, 1)
  else if b = openBrace ∨ b = closeBrace ∨ b = semicolon then (.punct, 0)
  else (.other, 0)

/-- Cut a source into lexemes. -/
def cut : Bytes → List Lexeme
  | [] => []
  | b :: rest =>
    let e := extent b rest
    ⟨e.1, b :: rest.take e.2⟩ :: cut (rest.drop e.2)
termination_by source => source.length
decreasing_by
  simp only [List.length_drop, List.length_cons]
  omega

/-- Nothing is lost and nothing is added. -/
theorem flatMap_bytes_cut (source : Bytes) : (cut source).flatMap bytes = source := by
  fun_induction cut source with
  | case1 => rfl
  | case2 b rest e ih => simp [ih]

end Lexeme

end RenameServer
