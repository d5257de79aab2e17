import RenameServer.Text.Character

/-!
Paths of a file system in normal form: repeated slashes and single dots vanish,
two dots stay, and so do exactly two slashes at the front. The empty path is a
single dot.
-/
namespace RenameServer.Path

/-- The parts between slashes, empty ones included. -/
def segments : List Char → List (List Char) := Text.between '/'

/-- The slashes that a path keeps at its front. -/
def root (path : List Char) : List Char :=
  match (path.takeWhile (· = '/')).length with
  | 0 => []
  | 2 => ['/', '/']
  | _ => ['/']

/-- The names that a path goes through: its segments without single dots. -/
def names (path : List Char) : List (List Char) :=
  (segments path).filter fun s => s ≠ [] ∧ s ≠ ['.']

/-- A path from the slashes at its front and its names. -/
def ofNames (front : List Char) (names : List (List Char)) : List Char :=
  match front ++ List.intercalate ['/'] names with
  | [] => ['.']
  | chars => chars

def normalChars (path : List Char) : List Char := ofNames (root path) (names path)

/-- A path in normal form. -/
def normal (path : String) : String := String.ofList (normalChars path.toList)

/-- A name below a directory. The front of the path is the directory's, also when the
directory is all front. -/
def join (directory name : String) : String :=
  String.ofList (ofNames (root directory.toList) (names directory.toList ++ names name.toList))

/-- Go through segments: two dots take back the segment before, unless there is
none to take back. -/
def climb (rooted : Bool) (kept : List (List Char)) : List (List Char) → List (List Char)
  | [] => kept.reverse
  | s :: rest =>
    if s = [] ∨ s = ['.'] then climb rooted kept rest
    else if s ≠ ['.', '.'] then climb rooted (s :: kept) rest
    else
      match kept with
      | [] => if rooted then climb rooted [] rest else climb rooted [s] rest
      | last :: before =>
        if last = ['.', '.'] then climb rooted (s :: kept) rest else climb rooted before rest

/-- A path without two dots, as far as its own segments allow. -/
def collapsed (path : String) : String :=
  let front := root path.toList
  String.ofList (ofNames front (climb (front ≠ []) [] (segments path.toList)))

end RenameServer.Path
