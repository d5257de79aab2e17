import RenameServer.Number.Binary64
import RenameServer.Text.Ragged

/-!
JSON values. Integers are unbounded and apart from the floating point numbers;
strings in which half of a surrogate pair stands alone are apart from the others;
an object lists its fields in order of insertion, each key once.
-/
namespace RenameServer

inductive Json where
  | null
  | bool (value : Bool)
  | int (value : Int)
  | float (value : Binary64)
  | str (value : String)
  | ragged (value : Ragged)
  | arr (items : List Json)
  | obj (fields : List (Str × Json))
  deriving Repr, Inhabited

namespace Json

/-- A text as a value. -/
def ofStr : Str → Json
  | .plain s => .str s
  | .ragged r => .ragged r

/-- The kinds of value that messages tell apart. -/
inductive Kind where
  | null
  | bool
  | int
  | float
  | str
  | arr
  | obj
  deriving Repr, DecidableEq

def kind : Json → Kind
  | .null => .null
  | .bool _ => .bool
  | .int _ => .int
  | .float _ => .float
  | .str _ | .ragged _ => .str
  | .arr _ => .arr
  | .obj _ => .obj

/-- The word for a kind in messages about values of the wrong kind. -/
def Kind.word : Kind → String
  | .null => "NoneType"
  | .bool => "bool"
  | .int => "int"
  | .float => "float"
  | .str => "str"
  | .arr => "list"
  | .obj => "dict"

/-- The value of a field among fields. -/
def lookup (key : Str) (fields : List (Str × Json)) : Option Json :=
  (fields.find? fun f => f.1 = key).map (·.2)

/-- Set a field: a key that is there keeps its place, a new one comes last. -/
def setField (key : Str) (value : Json) : List (Str × Json) → List (Str × Json)
  | [] => [(key, value)]
  | f :: rest => if f.1 = key then (key, value) :: rest else f :: setField key value rest

/-- A field of an object; none on other values. -/
def field? (key : Str) : Json → Option Json
  | .obj fields => lookup key fields
  | _ => none

/-- An object with a field set; other values stay. -/
def withField (key : Str) (value : Json) : Json → Json
  | .obj fields => .obj (setField key value fields)
  | other => other

/-- Nothing, zero, and what is empty do not count as given. -/
def isGiven : Json → Bool
  | .null => false
  | .bool b => b
  | .int n => n ≠ 0
  | .float x => !x.isZero
  | .str s => !s.isEmpty
  | .ragged _ => true
  | .arr items => !items.isEmpty
  | .obj fields => !fields.isEmpty

/-- The number that a value stands for when it is compared; a truth value counts as 0 or 1. -/
def asInt? : Json → Option Int
  | .bool b => some (if b then 1 else 0)
  | .int n => some n
  | .float x => x.toInt?
  | _ => none

mutual

/-- Equality of values: numbers by value, arrays item by item, objects field by
field in any order. -/
def same : Json → Json → Bool
  | .null, .null => true
  | .str s, .str t => s = t
  | .ragged r, .ragged q => r = q
  | .float x, .float y => x.same y
  | .arr xs, .arr ys => sameItems xs ys
  | .obj fs, .obj gs => fs.length = gs.length && sameFields fs gs
  | x, y =>
    match x.asInt?, y.asInt? with
    | some m, some n => m = n
    | _, _ => false

def sameItems : List Json → List Json → Bool
  | [], [] => true
  | x :: xs, y :: ys => same x y && sameItems xs ys
  | _, _ => false

def sameFields : List (Str × Json) → List (Str × Json) → Bool
  | [], _ => true
  | (key, x) :: rest, others =>
    (match lookup key others with
      | some y => same x y
      | none => false) && sameFields rest others

end

end Json

end RenameServer
