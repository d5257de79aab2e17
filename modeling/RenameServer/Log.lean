import RenameServer.Text.Ragged

/-!
Log lines. An entry is written when its level is within the chosen one, with a
letter for the level and the time of day; a long text is cut and its full length
is given. Lengths count code points. When the length to cut to has been taken
away, an entry that should be written cannot be.
-/
namespace RenameServer.Log

inductive Level where
  | silent
  | warn
  | info
  | event
  | debug
  | trace
  deriving Repr, DecidableEq

namespace Level

def rank : Level → Nat
  | .silent => 0
  | .warn => 1
  | .info => 2
  | .event => 3
  | .debug => 4
  | .trace => 5

def name : Level → String
  | .silent => "silent"
  | .warn => "warn"
  | .info => "info"
  | .event => "event"
  | .debug => "debug"
  | .trace => "trace"

def all : List Level := [.silent, .warn, .info, .event, .debug, .trace]

def ofName? (text : String) : Option Level := all.find? fun l => l.name = text

def letter : Level → String
  | .silent => ""
  | .warn => "W"
  | .info => "i"
  | .event => "e"
  | .debug => "d"
  | .trace => "t"

end Level

structure Entry where
  level : Level
  text : Str
  deriving Repr, DecidableEq

/-- What is written: entries up to a level, cut to a length; no positive length
means no limit. The length may be missing. -/
structure Settings where
  level : Level
  maxLength : Option Int
  deriving Repr, DecidableEq

/-- The time of day. -/
structure Time where
  hour : Nat
  minute : Nat
  second : Nat
  microsecond : Nat
  deriving Repr, DecidableEq

/-- A number with at least the given number of digits. -/
def padded (width n : Nat) : String :=
  let digits := Nat.toDigits 10 n
  String.ofList (List.replicate (width - digits.length) '0' ++ digits)

def Time.text (t : Time) : String :=
  padded 2 t.hour ++ ":" ++ padded 2 t.minute ++ ":" ++ padded 2 t.second ++ "." ++
    padded 3 (t.microsecond / 1000)

def truncated (maxLength : Int) (text : Str) : Str :=
  if maxLength ≤ 0 ∨ (text.length : Int) ≤ maxLength then text
  else
    .ofPoints (text.points.take maxLength.toNat) ++
      Str.plain s!"... (truncated, {text.length} chars total)"

/-- A warning says so, and its length counts that. -/
def Entry.fullText (e : Entry) : Str :=
  if e.level = .warn then "WARN: " ++ e.text else e.text

/-- Should an entry be written? -/
def Settings.covers (settings : Settings) (e : Entry) : Bool := e.level.rank ≤ settings.level.rank

/-- Is an entry one that should be written and cannot be? -/
def Settings.fails (settings : Settings) (e : Entry) : Bool :=
  settings.covers e && settings.maxLength.isNone

/-- The line for an entry, if it is written at all. -/
def line? (settings : Settings) (time : Time) (e : Entry) : Option Str :=
  if settings.covers e then
    settings.maxLength.map fun limit =>
      Str.plain (e.level.letter ++ "[" ++ time.text ++ "] ") ++ truncated limit e.fullText
  else none

end RenameServer.Log
