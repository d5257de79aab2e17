import RenameServer.Fault

/-!
Which values can be written. An integer may not have too many digits, and values
may not be nested too deep; what is met first counts.
-/
namespace RenameServer.Json

mutual

/-- What keeps a value from being written with at most `depth` arrays and objects
inside each other, if anything does. -/
def obstacle? (depth : Nat) : Json → Option Fault
  | .int n =>
    if Integer.digitLimit < (Nat.toDigits 10 n.natAbs).length then some .longInteger else none
  | .arr items =>
    match depth with
    | 0 => some .deepValue
    | depth + 1 => itemsObstacle? depth items
  | .obj fields =>
    match depth with
    | 0 => some .deepValue
    | depth + 1 => fieldsObstacle? depth fields
  | _ => none

def itemsObstacle? (depth : Nat) : List Json → Option Fault
  | [] => none
  | x :: xs => (obstacle? depth x).or (itemsObstacle? depth xs)

def fieldsObstacle? (depth : Nat) : List (Str × Json) → Option Fault
  | [] => none
  | (_, x) :: fs => (obstacle? depth x).or (fieldsObstacle? depth fs)

end

/-- The text of a value that can be written. -/
def written (depth : Nat) (value : Json) : Except Fault Str :=
  match value.obstacle? depth with
  | some fault => .error fault
  | none => .ok value.compact

end RenameServer.Json
