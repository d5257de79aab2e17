import RenameServer.Source.Lexeme
import RenameServer.Text.Character

/-!
Which texts can name something: an identifier is a name from its first byte to
its last, and the reserved words are refused in any case.
-/
namespace RenameServer.Name

/-- Is the whole text a name? -/
def isIdentifier (text : String) : Bool :=
  match Utf8.encode text with
  | [] => false
  | b :: rest => Lexeme.isNameStart b && rest.all Lexeme.isNameByte

def reservedWords : List String :=
  ["abstract", "and", "array", "as", "break", "callable", "case", "catch", "class", "clone",
    "const", "continue", "declare", "default", "do", "echo", "else", "elseif", "empty",
    "enddeclare", "endfor", "endforeach", "endif", "endswitch", "endwhile", "enum", "eval", "exit",
    "extends", "false", "final", "finally", "fn", "for", "foreach", "function", "global", "goto",
    "if", "implements", "include", "include_once", "instanceof", "insteadof", "interface", "isset",
    "list", "match", "namespace", "new", "null", "or", "parent", "print", "private", "protected",
    "public", "readonly", "require", "require_once", "return", "self", "static", "switch", "throw",
    "trait", "true", "try", "unset", "use", "var", "while", "xor", "yield"]

/-- Lower case as far as it can lead to an ASCII word. The Kelvin sign is the
only other character whose lower case is ASCII throughout. -/
def lowerChar (c : Char) : Char :=
  if c.toNat = 0x212a then 'k' else Text.lowerAscii c

def isReserved (text : String) : Bool :=
  reservedWords.contains (String.ofList (text.toList.map lowerChar))

end RenameServer.Name
