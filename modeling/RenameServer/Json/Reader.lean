import RenameServer.Json.Basic
import RenameServer.Number.Integer
import RenameServer.Text.Character

/-!
Reading JSON text. The grammar is the strict one, with `NaN` and the infinities
as numbers; a key that comes again replaces the value and keeps its place. An
escape may write half of a surrogate pair, which stays as it is.
Integers may not have too many digits, and values may not be nested too deep. A
refused text gives the reason and the number of characters left where reading
stopped, from which line and column follow.
-/
namespace RenameServer.Json

/-- Why a text is no JSON value. -/
inductive Reason where
  | value
  | name
  | colon
  | comma
  | unterminated
  | control
  | escape
  | unicodeEscape
  | extra
  | byteOrderMark
  | longInteger (digits : Nat)
  | deepArray
  | deepObject
  deriving Repr, DecidableEq

structure Stop where
  reason : Reason
  left : Nat
  deriving Repr, DecidableEq

abbrev Reading (α : Type) := Except Stop (α × List Char)

def isSpace (c : Char) : Bool := c = ' ' ∨ c = '\t' ∨ c = '\n' ∨ c = '\r'

def skip (text : List Char) : List Char := text.dropWhile isSpace

def isDigit (c : Char) : Bool := '0' ≤ c ∧ c ≤ '9'

def digitsValue (digits : List Char) : Nat :=
  digits.foldl (fun n c => n * 10 + (c.toNat - 48)) 0

def hexFour? (a b c d : Char) : Option Nat := do
  let a ← Text.hexValue? a
  let b ← Text.hexValue? b
  let c ← Text.hexValue? c
  let d ← Text.hexValue? d
  return ((a * 16 + b) * 16 + c) * 16 + d

def simpleEscape? : Char → Option Char
  | '"' => some '"'
  | '\\' => some '\\'
  | '/' => some '/'
  | 'b' => some (Char.ofNat 8)
  | 'f' => some (Char.ofNat 12)
  | 'n' => some '\n'
  | 'r' => some '\r'
  | 't' => some '\t'
  | _ => none

/-- Read escaped code units: two halves of a surrogate pair are one character. -/
def joinUnits : List Nat → List Point
  | [] => []
  | high :: low :: rest =>
    if 0xd800 ≤ high ∧ high < 0xdc00 ∧ 0xdc00 ≤ low ∧ low < 0xe000 then
      .char (Char.ofNat (0x10000 + (high - 0xd800) * 0x400 + (low - 0xdc00))) :: joinUnits rest
    else .ofNat high :: joinUnits (low :: rest)
  | [n] => [.ofNat n]

/-- The units of a string up to its closing quote. `opening` is the number of
characters left at the opening quote. -/
def readUnits (opening : Nat) : List Char → Reading (List Nat)
  | [] => .error ⟨.unterminated, opening⟩
  | '"' :: rest => .ok ([], rest)
  | '\\' :: [] => .error ⟨.unterminated, opening⟩
  | '\\' :: 'u' :: a :: b :: c :: d :: last :: rest =>
    match hexFour? a b c d with
    | none => .error ⟨.unicodeEscape, rest.length + 6⟩
    | some n => (readUnits opening (last :: rest)).map fun (us, r) => (n :: us, r)
  | '\\' :: 'u' :: rest => .error ⟨.unicodeEscape, rest.length + 1⟩
  | '\\' :: c :: rest =>
    match simpleEscape? c with
    | some x => (readUnits opening rest).map fun (us, r) => (x.toNat :: us, r)
    | none => .error ⟨.escape, rest.length + 2⟩
  | c :: rest =>
    if c.toNat < 0x20 then .error ⟨.control, rest.length + 1⟩
    else (readUnits opening rest).map fun (us, r) => (c.toNat :: us, r)

/-- A string after its opening quote. -/
def readString (text : List Char) : Reading Str :=
  (readUnits (text.length + 1) text).map fun (us, r) => (.ofPoints (joinUnits us), r)

/-- The digits after a point, if a digit follows it. -/
def readFraction : List Char → Option (List Char) × List Char
  | '.' :: rest =>
    match rest.takeWhile isDigit with
    | [] => (none, '.' :: rest)
    | ds => (some ds, rest.dropWhile isDigit)
  | rest => (none, rest)

def exponentDigits (negative : Bool) (text : List Char) : Option (Int × List Char) :=
  match text.takeWhile isDigit with
  | [] => none
  | ds =>
    let n : Int := digitsValue ds
    some (if negative then -n else n, text.dropWhile isDigit)

/-- The exponent, if the mark is followed by digits. -/
def readExponent (text : List Char) : Option (Int × List Char) :=
  match text with
  | e :: '-' :: rest => if e = 'e' ∨ e = 'E' then exponentDigits true rest else none
  | e :: '+' :: rest => if e = 'e' ∨ e = 'E' then exponentDigits false rest else none
  | e :: rest => if e = 'e' ∨ e = 'E' then exponentDigits false rest else none
  | [] => none

/-- What follows the digits of the integer part. -/
def finishNumber (negative : Bool) (whole : List Char) (text : List Char) : Reading Json :=
  let (fraction, rest) := readFraction text
  match fraction, readExponent rest with
  | none, none =>
    if Integer.digitLimit < whole.length then .error ⟨.longInteger whole.length, rest.length⟩
    else
      let n : Int := digitsValue whole
      .ok (.int (if negative then -n else n), rest)
  | some ds, none =>
    .ok (.float (.ofDecimal negative (digitsValue (whole ++ ds)) (-(ds.length : Int))), rest)
  | none, some (e, rest) => .ok (.float (.ofDecimal negative (digitsValue whole) e), rest)
  | some ds, some (e, rest) =>
    .ok (.float (.ofDecimal negative (digitsValue (whole ++ ds)) (e - ds.length)), rest)

/-- A number after its sign; `start` is the number of characters left at the
sign. A leading zero stands alone. -/
def readNumber (negative : Bool) (start : Nat) : List Char → Reading Json
  | '0' :: rest => finishNumber negative ['0'] rest
  | text =>
    match text.takeWhile isDigit with
    | [] => .error ⟨.value, start⟩
    | ds => finishNumber negative ds (text.dropWhile isDigit)

/-- A value that holds no other value. -/
def readScalar (text : List Char) : Reading Json :=
  match text with
  | 'n' :: 'u' :: 'l' :: 'l' :: rest => .ok (.null, rest)
  | 't' :: 'r' :: 'u' :: 'e' :: rest => .ok (.bool true, rest)
  | 'f' :: 'a' :: 'l' :: 's' :: 'e' :: rest => .ok (.bool false, rest)
  | 'N' :: 'a' :: 'N' :: rest => .ok (.float .nan, rest)
  | 'I' :: 'n' :: 'f' :: 'i' :: 'n' :: 'i' :: 't' :: 'y' :: rest =>
    .ok (.float (.infinite false), rest)
  | '-' :: 'I' :: 'n' :: 'f' :: 'i' :: 'n' :: 'i' :: 't' :: 'y' :: rest =>
    .ok (.float (.infinite true), rest)
  | '"' :: rest =>
    (readString rest).map fun (s, r) => (.ofStr s, r)
  | '-' :: rest => readNumber true text.length rest
  | _ => readNumber false text.length text

mutual

/-- One value at the start of the text, with at most `depth` arrays and objects
inside each other. The fuel bounds the number of steps. -/
def readValue (fuel depth : Nat) (text : List Char) : Reading Json :=
  match fuel with
  | 0 => .error ⟨.value, text.length⟩
  | fuel + 1 =>
    match text with
    | '[' :: rest =>
      match depth with
      | 0 => .error ⟨.deepArray, text.length⟩
      | depth + 1 =>
        match skip rest with
        | ']' :: rest => .ok (.arr [], rest)
        | rest => (readItems fuel depth rest).map fun (xs, r) => (.arr xs, r)
    | '{' :: rest =>
      match depth with
      | 0 => .error ⟨.deepObject, text.length⟩
      | depth + 1 =>
        match skip rest with
        | '}' :: rest => .ok (.obj [], rest)
        | rest => (readFields fuel depth [] rest).map fun (fs, r) => (.obj fs, r)
    | _ => readScalar text

/-- Items up to the closing bracket, at least one. -/
def readItems (fuel depth : Nat) (text : List Char) : Reading (List Json) :=
  match fuel with
  | 0 => .error ⟨.value, text.length⟩
  | fuel + 1 =>
    match readValue fuel depth text with
    | .error stop => .error stop
    | .ok (x, rest) =>
      match skip rest with
      | ']' :: rest => .ok ([x], rest)
      | ',' :: rest => (readItems fuel depth (skip rest)).map fun (xs, r) => (x :: xs, r)
      | rest => .error ⟨.comma, rest.length⟩

/-- Fields up to the closing brace, at least one, added to those before. -/
def readFields (fuel depth : Nat) (before : List (Str × Json)) (text : List Char) :
    Reading (List (Str × Json)) :=
  match fuel with
  | 0 => .error ⟨.value, text.length⟩
  | fuel + 1 =>
    match text with
    | '"' :: rest =>
      match readString rest with
      | .error stop => .error stop
      | .ok (key, rest) =>
        match skip rest with
        | ':' :: rest =>
          match readValue fuel depth (skip rest) with
          | .error stop => .error stop
          | .ok (x, rest) =>
            let fields := setField key x before
            match skip rest with
            | '}' :: rest => .ok (fields, rest)
            | ',' :: rest => readFields fuel depth fields (skip rest)
            | rest => .error ⟨.comma, rest.length⟩
        | rest => .error ⟨.colon, rest.length⟩
    | _ => .error ⟨.name, text.length⟩

end

/-- A whole text as one value, nested at most `depth` times. -/
def readAll (depth : Nat) (text : List Char) : Except Stop Json :=
  match text with
  | '﻿' :: _ => .error ⟨.byteOrderMark, text.length⟩
  | _ =>
    match readValue (2 * text.length + 2) depth (skip text) with
    | .error stop => .error stop
    | .ok (x, rest) =>
      match skip rest with
      | [] => .ok x
      | rest => .error ⟨.extra, rest.length⟩

def Reason.text : Reason → String
  | .value => "Expecting value"
  | .name => "Expecting property name enclosed in double quotes"
  | .colon => "Expecting ':' delimiter"
  | .comma => "Expecting ',' delimiter"
  | .unterminated => "Unterminated string starting at"
  | .control => "Invalid control character at"
  | .escape => "Invalid \\escape"
  | .unicodeEscape => "Invalid \\uXXXX escape"
  | .extra => "Extra data"
  | .byteOrderMark => "Unexpected UTF-8 BOM (decode using utf-8-sig)"
  | .longInteger digits => Integer.tooLongText digits
  | .deepArray =>
    "maximum recursion depth exceeded while decoding a JSON array from a unicode string"
  | .deepObject =>
    "maximum recursion depth exceeded while decoding a JSON object from a unicode string"

/-- Is the text no JSON at all? Otherwise it only exceeds a limit. -/
def Reason.isMalformed : Reason → Bool
  | .longInteger _ | .deepArray | .deepObject => false
  | _ => true

/-- A refused text: the reason, and where, by line, column and character. -/
structure Refused where
  reason : Reason
  line : Nat
  column : Nat
  character : Nat
  deriving Repr, DecidableEq

def Stop.locate (text : List Char) (stop : Stop) : Refused :=
  let before := text.take (text.length - stop.left)
  { reason := stop.reason
    line := before.count '\n' + 1
    column := (before.reverse.takeWhile (· ≠ '\n')).length + 1
    character := before.length }

/-- What is wrong, and for a text that is no JSON also where. -/
def Refused.message (r : Refused) : String :=
  if r.reason.isMalformed then
    s!"{r.reason.text}: line {r.line} column {r.column} (char {r.character})"
  else r.reason.text

/-- Read a text as one JSON value that is nested at most `depth` times. -/
def ofText (depth : Nat) (text : String) : Except Refused Json :=
  match readAll depth text.toList with
  | .ok value => .ok value
  | .error stop => .error (stop.locate text.toList)

end RenameServer.Json
