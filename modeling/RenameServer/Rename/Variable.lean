import RenameServer.Rename.Renamer
import RenameServer.Source.Name
import RenameServer.Source.Scope

/-!
Renaming a variable. Its occurrences are the variables of the same spelling in
the scopes that share it: a closure that captures the name shares it with the
scope around, and sharing goes on from there.
-/
namespace RenameServer.Variable

/-- A scope, none for the file level. -/
abbrev Scope := Option Span

/-- The other ends of the edges at a scope. -/
def neighbours (edges : List (Scope × Scope)) (scope : Scope) : List Scope :=
  edges.filterMap fun e =>
    if e.1 = scope then some e.2 else if e.2 = scope then some e.1 else none

/-- The scopes that edges have at their ends. -/
def ends (edges : List (Scope × Scope)) : List Scope := edges.flatMap fun e => [e.1, e.2]

theorem mem_ends_of_mem_neighbours {edges : List (Scope × Scope)} {scope s : Scope}
    (h : s ∈ neighbours edges scope) : s ∈ ends edges := by
  obtain ⟨e, he, hend⟩ := List.mem_filterMap.mp h
  refine List.mem_flatMap.mpr ⟨e, he, ?_⟩
  split at hend
  · simp [← Option.some.inj hend]
  · split at hend
    · simp [← Option.some.inj hend]
    · cases hend

/-- The scopes found so far, and those among them whose edges are still to be followed. -/
structure Gathering where
  shared : List Scope
  pending : List Scope

namespace Gathering

/-- A scope is pending from when it is found. -/
def add (g : Gathering) (scope : Scope) : Gathering :=
  if scope ∈ g.shared then g else ⟨scope :: g.shared, scope :: g.pending⟩

/-- Follow the edges of one pending scope. -/
def visit (edges : List (Scope × Scope)) (g : Gathering) : Gathering :=
  match g.pending with
  | [] => g
  | scope :: rest => (neighbours edges scope).foldl add ⟨g.shared, rest⟩

/-- What is left: ends of edges that are not found yet, and pending scopes. -/
def left (edges : List (Scope × Scope)) (g : Gathering) : Nat :=
  ((ends edges).filter fun s => s ∉ g.shared).length + g.pending.length

theorem left_add_le {edges : List (Scope × Scope)} {scope : Scope} (h : scope ∈ ends edges)
    (g : Gathering) : (g.add scope).left edges ≤ g.left edges := by
  unfold add
  split
  · exact Nat.le_refl _
  · next hnew =>
    have hfewer : ((ends edges).filter fun s => s ∉ scope :: g.shared) =
        ((ends edges).filter fun s => s ∉ g.shared).filter (· ≠ scope) := by
      rw [List.filter_filter]
      exact List.filter_congr fun s _ => by simp [not_or]
    have hless : (((ends edges).filter fun s => s ∉ g.shared).filter (· ≠ scope)).length <
        ((ends edges).filter fun s => s ∉ g.shared).length :=
      List.length_filter_lt_length_iff_exists.mpr
        ⟨scope, List.mem_filter.mpr ⟨h, by simpa using hnew⟩, by simp⟩
    simp only [left, hfewer, List.length_cons]
    omega

theorem left_foldl_add_le {edges : List (Scope × Scope)} {found : List Scope}
    (h : ∀ s ∈ found, s ∈ ends edges) (g : Gathering) :
    (found.foldl add g).left edges ≤ g.left edges := by
  induction found generalizing g with
  | nil => exact Nat.le_refl _
  | cons scope found ih =>
    rw [List.foldl_cons]
    exact Nat.le_trans (ih (fun s hs => h s (List.mem_cons_of_mem _ hs)) _)
      (left_add_le (h scope List.mem_cons_self) g)

/-- A visit leaves less to do. -/
theorem left_visit_lt {edges : List (Scope × Scope)} {g : Gathering} (h : g.pending ≠ []) :
    (g.visit edges).left edges < g.left edges := by
  unfold visit
  split
  · next hnone => exact absurd hnone h
  · next scope rest hpending =>
    refine Nat.lt_of_le_of_lt (left_foldl_add_le (fun s => mem_ends_of_mem_neighbours) _) ?_
    simp only [left, hpending, List.length_cons]
    omega

/-- Visit pending scopes until there are none. -/
def finish (edges : List (Scope × Scope)) (g : Gathering) : List Scope :=
  if _h : g.pending = [] then g.shared else finish edges (g.visit edges)
termination_by g.left edges
decreasing_by exact left_visit_lt _h

end Gathering

/-- All scopes joined to the given ones by edges, in either direction. -/
def component (shared : List Scope) (edges : List (Scope × Scope)) : List Scope :=
  Gathering.finish edges ⟨shared, shared⟩

/-- The edges of a spelling: each capture joins the closure and the scope around it. -/
def captureEdges (scopes : Scopes) (spelling : Utf8.Bytes) (tokens : List Token) :
    List (Scope × Scope) :=
  tokens.filterMap fun t =>
    match scopes.captor? t.start with
    | some closure =>
      if t.value = spelling then some (scopes.enclosing? closure, some closure) else none
    | none => none

/-- The occurrences of the target's variable, in document order. -/
def occurrences (tokens : List Token) (target : Token) : List Token :=
  let scopes := Scopes.ofTokens tokens
  let shared := component [scopes.of? target] (captureEdges scopes target.value tokens)
  tokens.filter fun t => t.kind = .variable ∧ t.value = target.value ∧ scopes.of? t ∈ shared

def thisWord : Utf8.Bytes := Utf8.encode "$this"

def range? (s : Source) (offset : Int) : Option ByteRange :=
  match Token.at? s.tokens offset .variable with
  | some t => if t.value = thisWord then none else some t.range
  | none => none

/-- The new name without a dollar sign in front. -/
def bareName (newName : String) : String :=
  match newName.toList with
  | '$' :: rest => String.ofList rest
  | _ => newName

def steps (s : Source) (offset : Int) (newName : Json) : Stream Step :=
  let tokens := s.tokens
  match Token.at? tokens offset .variable with
  | none => Renamer.fail "Cursor is not on a variable" .notRenamable
  | some target =>
    if target.value = thisWord then Renamer.fail "Cannot rename $this" .notRenamable
    else
      match newName with
      | .str newName =>
        let name := bareName newName
        if !Name.isIdentifier name || name = "this" then
          Renamer.fail s!"\"{newName}\" is not a valid variable name" .invalidName
        else
          .ofList ((occurrences tokens target).map fun t => .edit ⟨s.uri, t.range, "$" ++ name⟩)
      | .ragged r => .raise (.ofRagged { r with before := bareName r.before })
      | other => .raise (.wrongKind (.member "startswith") other.kind)

theorem emits_steps {p : Event → Prop} (s : Source) (offset : Int) (newName : Json) :
    (steps s offset newName).Emits p := by
  unfold steps
  dsimp only
  split
  · trivial
  split
  · trivial
  split
  · split
    · trivial
    · exact Stream.emits_ofList _
  · trivial
  · trivial

def renamer : Renamer := { name := "VariableRenamer", range?, steps, quiet := emits_steps }

end RenameServer.Variable
