import RenameServer.Text.Character

/-!
When the authority of a URI is well formed. Brackets hold a whole host, which a
user may come before and a port after. What stands in them is a numeric address:
eight groups of hexadecimal digits, of which a pair of colons may leave some out
and four decimal octets may stand for the last two, or an address of a later
version, marked by a letter. No character may be compatible with one that
separates the parts of a URI.
-/
namespace RenameServer.Authority

inductive Defect where
  | unbalanced
  | besideBrackets
  | badFuture
  | octetsInBrackets
  | notAddress (host : String)
  | incompatible (authority : String)
  deriving Repr, DecidableEq

/-- A decimal number up to 255 without leading zeros. -/
def isOctet (text : List Char) : Bool :=
  let digits := text.all fun c => '0' ≤ c ∧ c ≤ '9'
  digits ∧ text ≠ [] ∧ text.length ≤ 3 ∧ (text = ['0'] ∨ text.head? ≠ some '0') ∧
    text.foldl (fun n c => n * 10 + (c.toNat - 48)) 0 ≤ 255

/-- Four octets with points between them. -/
def isQuad (text : List Char) : Bool :=
  let parts := Text.between '.' text
  parts.length = 4 ∧ parts.all isOctet

/-- One to four hexadecimal digits. -/
def isGroup (text : List Char) : Bool :=
  text ≠ [] ∧ text.length ≤ 4 ∧ text.all fun c => (Text.hexValue? c).isSome

/-- The groups of an address; four octets at the end count as two groups. -/
def groups (address : List Char) : List (List Char) :=
  let parts := Text.between ':' address
  match parts.getLast? with
  | some last => if isQuad last then parts.dropLast ++ [['0'], ['0']] else parts
  | none => parts

/-- The groups on one side of a pair of colons, which may also stand at the very end. -/
def side (parts : List (List Char)) : List (List Char) := if parts = [[]] then [] else parts

/-- Eight groups, or fewer around a pair of colons. -/
def isGrouped (address : List Char) : Bool :=
  match groups address with
  | [] => false
  | first :: rest =>
    match rest.dropWhile (· ≠ []) with
    | [] :: next :: more =>
      let shown := side (first :: rest.takeWhile (· ≠ [])) ++ side (next :: more)
      shown.length ≤ 7 ∧ shown.all isGroup
    | _ => rest.length = 7 ∧ isGroup first ∧ rest.all isGroup

/-- An address of groups, with or without the name of a zone after a percent sign. -/
def isZoned (host : List Char) : Bool :=
  let named : Bool := match host.dropWhile (· ≠ '%') with
    | [] => true
    | _ :: zone => zone ≠ [] ∧ !zone.contains '%'
  named && isGrouped (host.takeWhile (· ≠ '%'))

/-- A letter, a version in hexadecimal digits, a point, and anything. -/
def isFuture (host : List Char) : Bool :=
  let rest := host.drop 1
  let isHex (c : Char) : Bool := (Text.hexValue? c).isSome
  match rest.takeWhile isHex, rest.dropWhile isHex with
  | _ :: _, '.' :: _ :: _ => true
  | _, _ => false

/-- What follows the user of an authority, that is, its last at sign. -/
def hostAndPort (authority : List Char) : List Char :=
  (authority.reverse.takeWhile (· ≠ '@')).reverse

/-- The host of an authority with brackets. It is what they hold, with nothing before
them and at most a port after them; where only the user has brackets, it is
what comes before the port. -/
def numericHost (authority : List Char) : Except Defect (List Char) :=
  let located := hostAndPort authority
  match located.takeWhile (· ≠ '['), located.dropWhile (· ≠ '[') with
  | host, [] => .ok (host.takeWhile (· ≠ ':'))
  | [], _ :: inside =>
    match (inside.dropWhile (· ≠ ']')).drop 1 with
    | [] | ':' :: _ => .ok (inside.takeWhile (· ≠ ']'))
    | _ => .error .besideBrackets
  | _, _ => .error .besideBrackets

/-- Check that a host is a numeric address of groups or of a later version. -/
def checkHost (host : List Char) : Except Defect Unit :=
  if host.head? = some 'v' then
    if isFuture host then .ok () else .error .badFuture
  else if isQuad host then .error .octetsInBrackets
  else if isZoned host then .ok ()
  else .error (.notAddress (String.ofList host))

/-- Characters whose compatibility form holds a separator of URI parts. -/
def hidesSeparator (c : Char) : Bool :=
  [0x2047, 0x2048, 0x2049, 0x2100, 0x2101, 0x2105, 0x2106, 0x2a74, 0xfe13, 0xfe16, 0xfe55, 0xfe56,
    0xfe5f, 0xfe6b, 0xff03, 0xff0f, 0xff1a, 0xff1f, 0xff20].contains c.toNat

/-- Check an authority: its brackets first, then its characters. -/
def check (authority : List Char) : Except Defect Unit := do
  if authority.contains '[' ≠ authority.contains ']' then throw .unbalanced
  if authority.contains '[' then checkHost (← numericHost authority)
  if authority.any hidesSeparator then throw (.incompatible (String.ofList authority))

end RenameServer.Authority
