import RenameServer.Authority
import RenameServer.Fault
import RenameServer.Path
import RenameServer.Text.Character

/-!
The path that a file URI names. Blanks before the URI and tabs and line ends in
it do not count. The scheme is compared in lower case, the authority is dropped
once it is known to be well formed, and so are query and fragment. Escapes in
the path are decoded as UTF-8 with replacement; malformed ones stay. A half of a
surrogate pair that stands alone is read as any other character is, but no file
can be looked up by a URI with one.
-/
namespace RenameServer.Uri

open Utf8 (Bytes)

structure Parts where
  scheme : List Char
  authority : List Char
  path : List Char
  deriving Repr, DecidableEq

def isSchemeChar (c : Char) : Bool :=
  Text.isLetter c ∨ ('0' ≤ c ∧ c ≤ '9') ∨ c = '+' ∨ c = '-' ∨ c = '.'

/-- What counts of a URI. -/
def cleaned (uri : List Char) : List Char :=
  (uri.dropWhile fun c => c.toNat ≤ 0x20).filter fun c => c ≠ '\t' ∧ c ≠ '\r' ∧ c ≠ '\n'

/-- The scheme in lower case and what follows its colon. -/
def splitScheme (uri : List Char) : List Char × List Char :=
  let before := uri.takeWhile (· ≠ ':')
  match uri.dropWhile (· ≠ ':') with
  | [] => ([], uri)
  | _ :: rest =>
    if before.head?.any Text.isLetter ∧ before.all isSchemeChar then
      (before.map Text.lowerAscii, rest)
    else ([], uri)

/-- The authority, if two slashes announce one, and the rest. -/
def splitAuthority (rest : List Char) : List Char × List Char :=
  let inside (c : Char) : Bool := c ≠ '/' ∧ c ≠ '?' ∧ c ≠ '#'
  match rest with
  | '/' :: '/' :: more => (more.takeWhile inside, more.dropWhile inside)
  | _ => ([], rest)

def split (uri : List Char) : Except Fault Parts :=
  let (scheme, rest) := splitScheme (cleaned uri)
  let (authority, rest) := splitAuthority rest
  match Authority.check authority with
  | .ok () => .ok ⟨scheme, authority, rest.takeWhile fun c => c ≠ '#' ∧ c ≠ '?'⟩
  | .error defect => .error (.badAuthority defect)

/-- The bytes of ASCII text with its escapes decoded. -/
def unescape : List Char → Bytes
  | [] => []
  | '%' :: a :: b :: rest =>
    match Text.hexValue? a, Text.hexValue? b with
    | some high, some low => UInt8.ofNat (high * 16 + low) :: unescape rest
    | _, _ => 0x25 :: unescape (a :: b :: rest)
  | c :: rest => UInt8.ofNat c.toNat :: unescape rest

/-- Decode the escapes of a text, one run of ASCII characters at a time. -/
def unquote : List Char → List Char
  | [] => []
  | c :: rest =>
    if Text.isAscii c then
      Utf8.decodeLossy (unescape (c :: rest.takeWhile Text.isAscii)) ++
        unquote (rest.dropWhile Text.isAscii)
    else c :: unquote rest
termination_by text => text.length
decreasing_by
  · have := (List.dropWhile_suffix (l := rest) Text.isAscii).length_le
    simp only [List.length_cons]
    omega
  · simp only [List.length_cons]
    omega

/-- The path of a file URI; other URIs name no file. -/
def toPath (uri : String) : Except Fault String := do
  let parts ← split uri.toList
  if parts.scheme = "file".toList then
    return Path.normal (String.ofList (unquote parts.path))
  else throw (.documentNotFound (.str uri))

/-- The path of what was given as a URI. Nothing at all names no file. -/
def pathOf : Json → Except Fault String
  | .str uri => toPath uri
  | .ragged r => do
    let parts ← split r.marked.toList
    throw (if parts.scheme = "file".toList then .ofRagged r else .documentNotFound (.ragged r))
  | other =>
    if other.isGiven then .error (.wrongKind (.member "decode") other.kind)
    else .error (.documentNotFound other)

end RenameServer.Uri
