import RenameServer.Source.Token

/-!
Variable scopes of a source. The bodies of functions and class-like
declarations are spans from the keyword to the closing brace; a closure's `use`
clause captures variables of the scope around it. The scan goes over the tokens
once and keeps a stack of open braces.
-/
namespace RenameServer

open Utf8 (Bytes)

/-- Half-open range of offsets. The span of a body holds its keyword and both braces. -/
structure Span where
  start : Int
  stop : Int
  deriving Repr, DecidableEq

def Span.contains (s : Span) (offset : Int) : Bool := s.start ≤ offset ∧ offset < s.stop

/-- The span with the largest start among those around an offset; of two with
the same start, the later. -/
def Span.innermost? (spans : List Span) (offset : Int) : Option Span :=
  spans.foldl (fun found s =>
    if s.contains offset ∧ found.all (fun f => f.start ≤ s.start) then some s else found) none

/-- Bodies in the order in which they end, and for each captured variable its
start and the closure that captures it. -/
structure Scopes where
  spans : List Span
  captures : List (Nat × Span)
  deriving Repr, DecidableEq

namespace Scopes

/-- The closure that captures the variable starting at an offset. -/
def captor? (scopes : Scopes) (start : Nat) : Option Span :=
  (scopes.captures.find? fun c => c.1 = start).map (·.2)

/-- The scope directly around a span, none at file level. -/
def enclosing? (scopes : Scopes) (span : Span) : Option Span :=
  Span.innermost? (scopes.spans.filter fun s => s ≠ span) span.start

/-- The scope that a variable belongs to. A captured variable belongs to the
scope it is captured from, not to the closure. -/
def of? (scopes : Scopes) (t : Token) : Option Span :=
  match scopes.captor? t.start with
  | some closure => scopes.enclosing? closure
  | none => Span.innermost? scopes.spans t.start

/-- What a declaration has shown so far: where its keyword starts, whether it is
a function, whether its `use` clause has begun, and the variables in that clause. -/
structure Pending where
  keyword : Option Nat
  function : Bool
  inUse : Bool
  used : List Token

def Pending.none : Pending := ⟨Option.none, false, false, []⟩

/-- The state of the scan. -/
structure Scan where
  pending : Pending
  opened : List (Option Nat × List Token)
  found : Scopes
  member : Bool

def Scan.initial : Scan := ⟨.none, [], ⟨[], []⟩, false⟩

def functionWord : Bytes := Utf8.encode "function"
def useWord : Bytes := Utf8.encode "use"

/-- Words whose next brace block is a scope of its own. -/
def scopeWords : List Bytes :=
  [functionWord, Utf8.encode "class", Utf8.encode "trait", Utf8.encode "interface",
    Utf8.encode "enum"]

/-- Marks after which an identifier is a member name and declares nothing. -/
def memberMarks : List Bytes :=
  [[Lexeme.colon, Lexeme.colon], [Lexeme.minus, Lexeme.greater]]

/-- Close a brace: the body of a declaration becomes a span, and its captured
variables are recorded with it. -/
def Scan.close (s : Scan) (stop : Nat) : Scan :=
  match s.opened with
  | [] => s
  | (Option.none, _) :: outer => { s with opened := outer }
  | (some start, used) :: outer =>
    let span : Span := ⟨start, stop⟩
    { s with
      opened := outer
      found := ⟨s.found.spans ++ [span], s.found.captures ++ used.map fun v => (v.start, span)⟩ }

/-- One token that is no member name. -/
def Scan.declare (s : Scan) (t : Token) : Scan :=
  if t.kind = .identifier ∧ Token.lowerBytes t.value ∈ scopeWords then
    { s with pending := ⟨some t.start, Token.lowerBytes t.value = functionWord, false, []⟩ }
  else if t.kind = .identifier ∧ s.pending.function ∧ Token.lowerBytes t.value = useWord then
    { s with pending := { s.pending with inUse := true } }
  else if t.kind = .variable ∧ s.pending.inUse then
    { s with pending := { s.pending with used := s.pending.used ++ [t] } }
  else if t.value = [Lexeme.semicolon] then { s with pending := .none }
  else if t.value = [Lexeme.openBrace] then
    { s with pending := .none, opened := (s.pending.keyword, s.pending.used) :: s.opened }
  else if t.value = [Lexeme.closeBrace] then s.close t.stop
  else s

def Scan.step (s : Scan) (t : Token) : Scan :=
  let next := if s.member ∧ t.kind = .identifier then s else s.declare t
  { next with member := t.value ∈ memberMarks }

/-- The scopes that a list of tokens declares. -/
def ofTokens (tokens : List Token) : Scopes :=
  (tokens.foldl Scan.step Scan.initial).found

end Scopes

end RenameServer
