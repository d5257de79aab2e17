import RenameServer.Text.Character

/-!
Integers written as text: blanks around, an optional sign, and decimal digits
with single underscores between them. Leading zeros are allowed, but they count
as digits, and there may not be too many of those. The number of digits is
settled before what follows them is looked at.
-/
namespace RenameServer.Integer

/-- Why a text is no integer: it is spelled wrongly, or it has too many digits. -/
inductive Refusal where
  | misspelled
  | tooLong (digits : Nat)
  deriving Repr, DecidableEq

/-- The most digits that an integer may be written with. -/
def digitLimit : Nat := 4300

def tooLongText (digits : Nat) : String :=
  s!"Exceeds the limit ({digitLimit} digits) for integer string conversion: " ++
    s!"value has {digits} digits; use sys.set_int_max_str_digits() to increase the limit"

/-- What is said of an integer that is not written as text. -/
def longText : String :=
  s!"Exceeds the limit ({digitLimit} digits) for integer string conversion; " ++
    "use sys.set_int_max_str_digits() to increase the limit"

def isDigitOrUnderscore (c : Char) : Bool := c = '_' || (Text.digit? c).isSome

/-- Digits of which `value` has been read; `again` says that a digit must follow. -/
def digits (value : Nat) (again : Bool) : List Char → Option Nat
  | [] => if again then none else some value
  | '_' :: rest => if again then none else digits value true rest
  | c :: rest => (Text.digit? c).bind fun d => digits (value * 10 + d) false rest

/-- The integer without its sign. Only blanks may follow its digits. -/
def unsigned (text : List Char) : Except Refusal Nat :=
  let spelled := text.takeWhile isDigitOrUnderscore
  let count := spelled.countP (· ≠ '_')
  match digits 0 true spelled with
  | none => .error .misspelled
  | some n =>
    if digitLimit < count then .error (.tooLong count)
    else if (text.dropWhile isDigitOrUnderscore).all Text.isBlank then .ok n
    else .error .misspelled

def signed : List Char → Except Refusal Int
  | '-' :: rest => (unsigned rest).map fun n => -(n : Int)
  | '+' :: rest => (unsigned rest).map fun n => (n : Int)
  | text => (unsigned text).map fun n => (n : Int)

/-- The integer that a text spells. -/
def ofText (text : String) : Except Refusal Int :=
  signed (text.toList.dropWhile Text.isBlank)

end RenameServer.Integer
