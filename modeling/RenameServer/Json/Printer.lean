import RenameServer.Json.Basic
import RenameServer.Number.Shortest
import RenameServer.Text.Quoted

/-!
JSON text: a comma and a space between items, a colon and a space after a key,
characters above ASCII as they are, control characters escaped. Halves that stand
alone are written as they are too, so the text of a value may be ragged.
-/
namespace RenameServer.Json

def escapeChar (c : Char) : List Char :=
  if c = '"' then ['\\', '"']
  else if c = '\\' then ['\\', '\\']
  else if c = '\n' then ['\\', 'n']
  else if c = '\r' then ['\\', 'r']
  else if c = '\t' then ['\\', 't']
  else if c.toNat = 8 then ['\\', 'b']
  else if c.toNat = 12 then ['\\', 'f']
  else if c.toNat < 0x20 then '\\' :: 'u' :: Text.hexDigits c.toNat 4
  else [c]

def escapePoint : Point → List Point
  | .char c => (escapeChar c).map .char
  | .half h => [.half h]

def stringPoints (s : Str) : List Point :=
  .char '"' :: s.points.flatMap escapePoint ++ [.char '"']

def intChars : Int → List Char
  | .ofNat n => Nat.toDigits 10 n
  | .negSucc n => '-' :: Nat.toDigits 10 (n + 1)

/-- Characters of the notation. -/
def marks (text : String) : List Point := text.toList.map .char

mutual

def points : Json → List Point
  | .null => marks "null"
  | .bool true => marks "true"
  | .bool false => marks "false"
  | .int n => (intChars n).map .char
  | .float x => marks (x.text "Infinity" "NaN")
  | .str s => stringPoints s
  | .ragged r => stringPoints (.ragged r)
  | .arr [] => marks "[]"
  | .arr (x :: xs) => marks "[" ++ points x ++ itemPoints xs
  | .obj [] => marks "\x7b\x7d"
  | .obj ((key, x) :: fs) =>
    marks "\x7b" ++ stringPoints key ++ marks ": " ++ points x ++ fieldPoints fs

/-- The items after the first, and the closing bracket. -/
def itemPoints : List Json → List Point
  | [] => marks "]"
  | x :: xs => marks ", " ++ points x ++ itemPoints xs

/-- The fields after the first, and the closing brace. -/
def fieldPoints : List (Str × Json) → List Point
  | [] => marks "\x7d"
  | (key, x) :: fs =>
    marks ", " ++ stringPoints key ++ marks ": " ++ points x ++ fieldPoints fs

end

/-- The text of a value on one line. -/
def compact (value : Json) : Str := .ofPoints (points value)

end RenameServer.Json
