import RenameServer.Authority
import RenameServer.Json.Display
import RenameServer.Json.Reader
import RenameServer.Number.Integer
import RenameServer.Text.Utf8

/-!
Everything that can go wrong, by cause. The wording of every cause is in one
place, `Fault.message`; what reaches a client or a log is this text.
-/
namespace RenameServer

/-- What a JSON value was wanted for when it turned out to be of another kind. -/
inductive Use where
  | field
  | member (name : String)
  | items
  | search
  | integer
  | key
  | text
  | label
  | order (operator : String)
  deriving Repr, DecidableEq

inductive Fault where
  | documentNotFound (uri : Json)
  | missingField (key : String)
  | wrongKind (use : Use) (kind : Json.Kind)
  | infiniteInteger
  | nanInteger
  | badInteger (text : Str) (refusal : Integer.Refusal)
  | badPosition (line character : Int)
  | badOffset (offset : Int)
  | outOfTable
  | badRange (start stop : Int)
  | badFailureKind (name : String)
  | badPause
  | badAuthority (defect : Authority.Defect)
  | malformedText (part : Utf8.Malformed)
  | unencodable (half : Half) (position count : Nat)
  | malformedHeader (position : Nat) (byte : UInt8)
  | refusedJson (refused : Json.Refused)
  | longInteger
  | deepValue
  | longLine (complete : Bool)
  | negativeLength
  | shortBody (read expected : Nat)
  | notConnected
  | noHome
  | nameTooLong (path : String)
  | nulInPath
  | presetNotFound (path : String)
  | presetUndefined (name : String)
  | noResponse (id : Json)
  | noNotification (method : Json)
  | callFailed (method error : Json)
  deriving Repr

namespace Fault

def wrongKindMessage (kind : Json.Kind) : Use → String
  | .field =>
    match kind with
    | .str => "string indices must be integers, not 'str'"
    | .arr => "list indices must be integers or slices, not str"
    | _ => s!"'{kind.word}' object is not subscriptable"
  | .member name => s!"'{kind.word}' object has no attribute '{name}'"
  | .items => s!"'{kind.word}' object is not iterable"
  | .search => s!"argument of type '{kind.word}' is not iterable"
  | .integer =>
    s!"int() argument must be a string, a bytes-like object or a real number, not '{kind.word}'"
  | .key => s!"unhashable type: '{kind.word}'"
  | .text => s!"expected string or bytes-like object, got '{kind.word}'"
  | .order operator =>
    s!"'{operator}' not supported between instances of '{kind.word}' and 'int'"
  | .label => s!"unsupported operand type(s) for +=: '{kind.word}' and 'str'"

def reasonText : Utf8.Reason → String
  | .start => "invalid start byte"
  | .continuation => "invalid continuation byte"
  | .truncated => "unexpected end of data"

def byteText (b : UInt8) : String := "0x" ++ String.ofList (Text.hexDigits b.toNat 2)

def malformedMessage (part : Utf8.Malformed) : String :=
  let place := match part.bytes with
    | [b] => s!"byte {byteText b} in position {part.position}"
    | bytes => s!"bytes in position {part.position}-{part.position + bytes.length - 1}"
  s!"'utf-8' codec can't decode {place}: {reasonText part.reason}"

/-- Halves that stand alone are shown by their code if there is one of them. -/
def unencodableMessage (half : Half) (position count : Nat) : String :=
  let place := match count with
    | 1 => s!"character '{String.ofList (Text.halfEscape half)}' in position {position}"
    | _ => s!"characters in position {position}-{position + count - 1}"
  s!"'utf-8' codec can't encode {place}: surrogates not allowed"

def authorityMessage : Authority.Defect → String
  | .unbalanced | .besideBrackets => "Invalid IPv6 URL"
  | .badFuture => "IPvFuture address is invalid"
  | .octetsInBrackets => "An IPv4 address cannot be in brackets"
  | .notAddress host => s!"{Text.quoted host} does not appear to be an IPv4 or IPv6 address"
  | .incompatible authority =>
    s!"netloc '{authority}' contains invalid characters under NFKC normalization"

/-- A text that is no integer is quoted, as far as its first two hundred characters. -/
def integerMessage (text : Str) : Integer.Refusal → String
  | .misspelled =>
    let shown := String.ofList ((Text.quoted text).toList.take 200)
    s!"invalid literal for int() with base 10: {shown}"
  | .tooLong digits => Integer.tooLongText digits

/-- The text of a fault. -/
def message : Fault → Str
  | .documentNotFound uri => "Document not found: " ++ uri.display
  | .missingField key => Text.quoted key
  | .wrongKind use kind => wrongKindMessage kind use
  | .infiniteInteger => "cannot convert float infinity to integer"
  | .nanInteger => "cannot convert float NaN to integer"
  | .badInteger text refusal => integerMessage text refusal
  | .badPosition line character =>
    s!"Invalid position Position(line={line}, character={character})"
  | .badOffset offset => s!"Invalid byte offset {offset}"
  | .outOfTable => "list index out of range"
  | .badRange start stop => s!"Invalid byte range {start}..{stop}"
  | .badFailureKind name => s!"{Text.quoted name} is not a valid FailureKind"
  | .badPause => "yield_every must be positive"
  | .badAuthority defect => authorityMessage defect
  | .malformedText part => malformedMessage part
  | .unencodable half position count => unencodableMessage half position count
  | .malformedHeader position byte =>
    s!"'ascii' codec can't decode byte {byteText byte} in position {position}: " ++
      "ordinal not in range(128)"
  | .refusedJson refused => refused.message
  | .longInteger => Integer.longText
  | .deepValue => "maximum recursion depth exceeded while encoding a JSON object"
  | .longLine true => "Separator is found, but chunk is longer than limit"
  | .longLine false => "Separator is not found, and chunk exceed the limit"
  | .negativeLength => "readexactly size can not be less than zero"
  | .shortBody read expected => s!"{read} bytes read on a total of {expected} expected bytes"
  | .notConnected => "Server is not connected"
  | .noHome => "Could not determine home directory."
  | .nameTooLong path => s!"[Errno 36] File name too long: {Text.quoted path}"
  | .nulInPath => "embedded null byte"
  | .presetNotFound path => s!"Cannot load preset from {path}"
  | .presetUndefined name => s!"Preset {name} defines no renamers()"
  | .noResponse id => "EOF while waiting for response to id=" ++ id.display
  | .noNotification method => "EOF while waiting for notification " ++ method.display
  | .callFailed method error => method.display ++ " failed: " ++ error.display

/-- The fault of encoding a text that has no encoding. -/
def ofRagged (r : Ragged) : Fault := .unencodable r.half r.before.length r.run

end Fault

end RenameServer
