import RenameServer.Fault

/-!
Taking values apart as messages require it. A value of the wrong kind, or an
object without the field, is a fault that says so.
-/
namespace RenameServer.Json

/-- A field that has to be there. -/
def need (value : Json) (key : String) : Except Fault Json :=
  match value with
  | .obj fields =>
    match lookup key fields with
    | some x => .ok x
    | none => .error (.missingField key)
  | other => .error (.wrongKind .field other.kind)

/-- A field of an object, or what stands for it when it is absent. -/
def getOr (value : Json) (key : String) (absent : Json) : Except Fault Json :=
  match value with
  | .obj fields => .ok ((lookup key fields).getD absent)
  | other => .error (.wrongKind (.member "get") other.kind)

/-- Does a word occur in a text? -/
def occursIn (word : List Point) : List Point → Bool
  | [] => word.isEmpty
  | c :: rest => word.isPrefixOf (c :: rest) || occursIn word rest

/-- Is a word a key of an object, an item of an array, or part of a text? -/
def mentions (value : Json) (word : String) : Except Fault Bool :=
  match value with
  | .obj fields => .ok (lookup word fields).isSome
  | .arr items => .ok (items.any fun x => x.same (.str word))
  | .str s => .ok (occursIn (Str.points word) (Str.points s))
  | .ragged r => .ok (occursIn (Str.points word) r.points)
  | other => .error (.wrongKind .search other.kind)

/-- The integer a value stands for: fractions are cut off, texts are read. -/
def toInt : Json → Except Fault Int
  | .int n => .ok n
  | .bool b => .ok (if b then 1 else 0)
  | .float x =>
    match x with
    | .finite .. => .ok (x.truncate?.getD 0)
    | .infinite _ => .error .infiniteInteger
    | .nan => .error .nanInteger
  | .str s => (Integer.ofText s).mapError (Fault.badInteger s)
  | .ragged r => (Integer.ofText r.marked).mapError (Fault.badInteger (.ragged r))
  | other => .error (.wrongKind .integer other.kind)

/-- A string that can be encoded, or the fault of using another value as one. -/
def toText (use : Use) : Json → Except Fault String
  | .str s => .ok s
  | .ragged r => .error (.ofRagged r)
  | other => .error (.wrongKind use other.kind)

/-- A code point as a value. -/
def ofPoint (p : Point) : Json := .ofStr (.ofPoints [p])

/-- The items to go through one by one: those of an array, the code points of a
string, the keys of an object. -/
def toItems : Json → Except Fault (List Json)
  | .arr items => .ok items
  | .str s => .ok ((Str.points s).map ofPoint)
  | .ragged r => .ok (r.points.map ofPoint)
  | .obj fields => .ok (fields.map fun f => .ofStr f.1)
  | other => .error (.wrongKind .items other.kind)

/-- Values that can name a document: all but arrays and objects. -/
def asKey (value : Json) : Except Fault Json :=
  match value with
  | .arr _ | .obj _ => .error (.wrongKind .key value.kind)
  | _ => .ok value

end RenameServer.Json
