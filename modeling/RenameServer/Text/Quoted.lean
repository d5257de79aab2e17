import RenameServer.Text.Printable
import RenameServer.Text.Ragged

/-!
Quoted text as messages show it: single quotes, or double quotes when the text
holds a single quote and no double quote. A backslash and the chosen quote get
a backslash; characters that are not shown become escapes of two, four or eight
hexadecimal digits, and so do halves that stand alone.
-/
namespace RenameServer.Text

def hexDigit (n : Nat) : Char :=
  if n < 10 then Char.ofNat (48 + n) else Char.ofNat (87 + n)

/-- The lowest `width` hexadecimal digits of `n`. -/
def hexDigits (n : Nat) : (width : Nat) → List Char
  | 0 => []
  | width + 1 => hexDigits (n / 16) width ++ [hexDigit (n % 16)]

def quotedChar (quote c : Char) : List Char :=
  if c = quote ∨ c = '\\' then ['\\', c]
  else if c = '\n' then ['\\', 'n']
  else if c = '\r' then ['\\', 'r']
  else if c = '\t' then ['\\', 't']
  else if isPrintable c then [c]
  else if c.toNat < 0x100 then '\\' :: 'x' :: hexDigits c.toNat 2
  else if c.toNat < 0x10000 then '\\' :: 'u' :: hexDigits c.toNat 4
  else '\\' :: 'U' :: hexDigits c.toNat 8

/-- The escape of half of a surrogate pair. -/
def halfEscape (h : Half) : List Char := '\\' :: 'u' :: hexDigits h.code 4

def quotedPoint (quote : Char) : Point → List Char
  | .char c => quotedChar quote c
  | .half h => halfEscape h

def quoted (text : Str) : String :=
  let ps := text.points
  let quote := if ps.contains (.char '\'') && !ps.contains (.char '"') then '"' else '\''
  String.ofList (quote :: ps.flatMap (quotedPoint quote) ++ [quote])

/-- A text with escapes for the halves that stand alone. -/
def escaped : Str → String
  | .plain s => s
  | .ragged r =>
    String.ofList (r.points.flatMap fun
      | .char c => [c]
      | .half h => halfEscape h)

end RenameServer.Text
