import RenameServer.Workspace

/-!
Lazy single-pass streams. Between two items a stream may log, look at the open
documents as they are at that moment, or fail. Nothing of it happens before an
item is asked for, so a consumer that lets others run between two items sees
what they did.
-/
namespace RenameServer

inductive Stream (α : Type) where
  | done
  | raise (fault : Fault)
  | emit (event : Event) (rest : Stream α)
  | look (rest : Workspace → Stream α)
  | item (value : α) (rest : Stream α)

namespace Stream

variable {α β : Type}

def ofList : List α → Stream α
  | [] => .done
  | a :: rest => .item a (ofList rest)

/-- The items of a list, then those of a stream. -/
def prepend : List α → Stream α → Stream α
  | [], s => s
  | a :: rest, s => .item a (prepend rest s)

def map (f : α → β) : Stream α → Stream β
  | .done => .done
  | .raise fault => .raise fault
  | .emit event rest => .emit event (map f rest)
  | .look rest => .look fun w => map f (rest w)
  | .item a rest => .item (f a) (map f rest)

/-- All events of a stream have a property. -/
def Emits (p : Event → Prop) : Stream α → Prop
  | .done => True
  | .raise _ => True
  | .emit event rest => p event ∧ rest.Emits p
  | .look rest => ∀ w, (rest w).Emits p
  | .item _ rest => rest.Emits p

section

variable {p : Event → Prop}

theorem Emits.prepend {s : Stream α} (h : s.Emits p) (xs : List α) : (prepend xs s).Emits p := by
  induction xs with
  | nil => exact h
  | cons x xs ih => exact ih

theorem emits_ofList (xs : List α) : (ofList xs).Emits p := by
  induction xs with
  | nil => trivial
  | cons x xs ih => exact ih

theorem Emits.map {s : Stream α} (h : s.Emits p) (f : α → β) : (s.map f).Emits p := by
  induction s with
  | done => trivial
  | raise fault => trivial
  | emit event rest ih => exact ⟨h.1, ih h.2⟩
  | look rest ih => exact fun w => ih w (h w)
  | item a rest ih => exact ih h

end

/-- A stream that sends the client nothing. -/
def Quiet (s : Stream α) : Prop := s.Emits fun event => event.message? = none

/-- What has come out of a stream: items and events in order, and the fault
that ended it, if one did. -/
structure Drawn (α : Type) where
  items : List α
  events : List Event
  fault : Option Fault

def Drawn.nothing : Drawn α := ⟨[], [], none⟩

/-- Draw at most `limit` items while the workspace stays as it is. -/
def draw (w : Workspace) (limit : Option Nat) : Stream α → Drawn α
  | .done => .nothing
  | .raise fault =>
    if limit = some 0 then .nothing else { (.nothing : Drawn α) with fault := fault }
  | .emit event rest =>
    if limit = some 0 then .nothing
    else
      let d := draw w limit rest
      { d with events := event :: d.events }
  | .look rest => if limit = some 0 then .nothing else draw w limit (rest w)
  | .item a rest =>
    if limit = some 0 then .nothing
    else
      let d := draw w (limit.map (· - 1)) rest
      { d with items := a :: d.items }

end Stream

end RenameServer
