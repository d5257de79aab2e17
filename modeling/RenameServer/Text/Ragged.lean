/-!
Texts in which half of a surrogate pair may stand alone, as an escape can write
it. Such a text has no encoding in UTF-8, so it is kept apart from the plain
ones: it is known where its first half is.
-/
namespace RenameServer

/-- Half of a surrogate pair. -/
structure Half where
  code : Nat
  lower : 0xd800 ≤ code
  upper : code < 0xe000
  deriving Repr, DecidableEq

/-- A code point: a character, or a half that stands alone. -/
inductive Point where
  | char (c : Char)
  | half (h : Half)
  deriving Repr, DecidableEq

namespace Point

def ofNat (n : Nat) : Point :=
  if h : 0xd800 ≤ n ∧ n < 0xe000 then .half ⟨n, h.1, h.2⟩ else .char (Char.ofNat n)

def isHalf : Point → Bool
  | .char _ => false
  | .half _ => true

/-- The characters up to the first half. -/
def leading : List Point → List Char
  | .char c :: rest => c :: leading rest
  | _ => []

/-- The code points from the first half on. -/
def trailing : List Point → List Point
  | .char _ :: rest => trailing rest
  | points => points

end Point

/-- A text with a half: what comes before the first one, the half, and what comes after. -/
structure Ragged where
  before : String
  half : Half
  after : List Point
  deriving Repr, DecidableEq

inductive Str where
  | plain (text : String)
  | ragged (text : Ragged)
  deriving Repr, DecidableEq

instance : Coe String Str := ⟨.plain⟩

instance : Inhabited Str := ⟨.plain ""⟩

namespace Ragged

def points (r : Ragged) : List Point := r.before.toList.map .char ++ .half r.half :: r.after

/-- The text with a question mark in place of every half. -/
def marked (r : Ragged) : String :=
  String.ofList (r.points.map fun
    | .char c => c
    | .half _ => '?')

/-- How many halves stand together where the first one is. -/
def run (r : Ragged) : Nat := 1 + (r.after.takeWhile Point.isHalf).length

end Ragged

namespace Str

def points : Str → List Point
  | .plain s => s.toList.map .char
  | .ragged r => r.points

def ofPoints (points : List Point) : Str :=
  let before := String.ofList (Point.leading points)
  match Point.trailing points with
  | .half h :: after => .ragged ⟨before, h, after⟩
  | _ => .plain before

/-- The number of code points. -/
def length : Str → Nat
  | .plain s => s.length
  | .ragged r => r.points.length

protected def append : Str → Str → Str
  | .plain s, .plain t => .plain (s ++ t)
  | .plain s, .ragged r => .ragged { r with before := s ++ r.before }
  | .ragged r, t => .ragged { r with after := r.after ++ t.points }

instance : Append Str := ⟨Str.append⟩

theorem plain_append (s t : String) : Str.plain s ++ Str.plain t = .plain (s ++ t) := rfl

theorem points_plain_append (s : String) (t : Str) :
    (Str.plain s ++ t).points = s.toList.map .char ++ t.points := by
  cases t with
  | plain t =>
    rw [plain_append, points, points, String.toList_append, List.map_append]
  | ragged r =>
    change Ragged.points { r with before := s ++ r.before } = _ ++ r.points
    rw [Ragged.points, Ragged.points, String.toList_append, List.map_append, List.append_assoc]

theorem leading_map_char (cs : List Char) : Point.leading (cs.map .char) = cs := by
  induction cs with
  | nil => rfl
  | cons c cs ih => exact congrArg (c :: ·) ih

theorem trailing_map_char (cs : List Char) : Point.trailing (cs.map .char) = [] := by
  induction cs with
  | nil => rfl
  | cons c cs ih => exact ih

/-- Characters alone make a plain text. -/
theorem ofPoints_map_char (cs : List Char) :
    ofPoints (cs.map .char) = .plain (String.ofList cs) := by
  rw [ofPoints, trailing_map_char, leading_map_char]

end Str

end RenameServer
