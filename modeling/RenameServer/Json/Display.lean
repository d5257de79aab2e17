import RenameServer.Json.Printer

/-!
Values as they stand inside messages and log lines: a string as it is, unless
it is part of a larger value, where it is quoted.
-/
namespace RenameServer.Json

mutual

/-- A value as a part of a larger one. -/
def shown : Json → String
  | .null => "None"
  | .bool true => "True"
  | .bool false => "False"
  | .int n => String.ofList (intChars n)
  | .float x => x.text "inf" "nan"
  | .str s => Text.quoted s
  | .ragged r => Text.quoted (.ragged r)
  | .arr items => "[" ++ shownItems items ++ "]"
  | .obj fields => "\x7b" ++ shownFields fields ++ "\x7d"

def shownItems : List Json → String
  | [] => ""
  | [x] => shown x
  | x :: xs => shown x ++ ", " ++ shownItems xs

def shownFields : List (Str × Json) → String
  | [] => ""
  | [(key, x)] => Text.quoted key ++ ": " ++ shown x
  | (key, x) :: fs => Text.quoted key ++ ": " ++ shown x ++ ", " ++ shownFields fs

end

/-- A value inside a message. -/
def display : Json → Str
  | .str s => .plain s
  | .ragged r => .ragged r
  | value => .plain (shown value)

end RenameServer.Json
