import Mathlib.Combinatorics.SimpleGraph.Connectivity.Connected
import RenameServer.Proofs.Disjointness
import RenameServer.Proofs.Relocation

/-!
The occurrences of a variable as a component of a graph. The scopes of a source,
the file level among them, are joined where a closure captures a variable: the
closure and the scope around it. A variable occurs in all scopes that can be
reached from its own, each of which is visited once.
-/
namespace RenameServer.Variable

open Utf8 (Bytes)
open Respelling

/-- A closure captures a variable of a spelling from the scope around it. -/
def CapturedFrom (tokens : List Token) (spelling : Bytes) (outer inner : Scope) : Prop :=
  ∃ t ∈ tokens, t.kind = .variable ∧ t.value = spelling ∧
    ∃ closure, (Scopes.ofTokens tokens).captor? t.start = some closure ∧
      outer = (Scopes.ofTokens tokens).enclosing? closure ∧ inner = some closure

/-- The scopes of a source, with an edge for each capture of a spelling. -/
def captureGraph (tokens : List Token) (spelling : Bytes) : SimpleGraph Scope :=
  .fromRel (CapturedFrom tokens spelling)

theorem mem_captureEdges {tokens : List Token} {base limit : Nat} (h : Apart base limit tokens)
    {spelling : Bytes} {outer inner : Scope} :
    (outer, inner) ∈ captureEdges (Scopes.ofTokens tokens) spelling tokens ↔
      CapturedFrom tokens spelling outer inner := by
  rw [captureEdges_eq, mem_edgesOf]
  constructor
  · rintro ⟨t, ht, hvalue, closure, hclosure, hedge⟩
    obtain ⟨rfl, rfl⟩ := Prod.mk.inj hedge
    have hkind := kind_of_captor? h (Scopes.anchored_ofTokens tokens) ht hclosure
    exact ⟨t, ht, hkind, of_decide_eq_true hvalue, closure, hclosure, rfl, rfl⟩
  · rintro ⟨t, ht, -, hvalue, closure, hclosure, rfl, rfl⟩
    exact ⟨t, ht, decide_eq_true hvalue, closure, hclosure, rfl⟩

/-- Scopes are joined by edges if one can be reached from the other in the graph. -/
theorem joined_iff_reachable {edges : List (Scope × Scope)} {r : Scope → Scope → Prop}
    (h : ∀ a b, (a, b) ∈ edges ↔ r a b) (a b : Scope) :
    Joined edges a b ↔ (SimpleGraph.fromRel r).Reachable a b := by
  constructor
  · intro hjoined
    induction hjoined with
    | rel a b hab =>
      by_cases hne : a = b
      · rw [hne]
      · exact SimpleGraph.Adj.reachable ⟨hne, .inl ((h a b).mp hab)⟩
    | refl a => exact .refl a
    | symm a b _ ih => exact ih.symm
    | trans a b c _ _ ihab ihbc => exact ihab.trans ihbc
  · rintro ⟨walk⟩
    induction walk with
    | nil => exact .refl _
    | cons hadj _ ih =>
      refine .trans _ _ _ ?_ ih
      rcases hadj.2 with hab | hba
      · exact .rel _ _ ((h _ _).mpr hab)
      · exact .symm _ _ (.rel _ _ ((h _ _).mpr hba))

/-- The variables of the target's spelling in scopes that can be reached from its own. -/
theorem mem_occurrences_iff {tokens : List Token} {base limit : Nat}
    (h : Apart base limit tokens) (target t : Token) :
    t ∈ occurrences tokens target ↔
      t ∈ tokens ∧ t.kind = .variable ∧ t.value = target.value ∧
        (captureGraph tokens target.value).Reachable ((Scopes.ofTokens tokens).of? target)
          ((Scopes.ofTokens tokens).of? t) := by
  rw [occurrences, List.mem_filter, decide_eq_true_iff, mem_component_iff, captureGraph,
    ← joined_iff_reachable fun a b => mem_captureEdges h]
  simp only [List.mem_singleton, exists_eq_left]

/-- Gathering a component takes one visit for each of its scopes. -/
theorem visits_component (scope : Scope) (edges : List (Scope × Scope)) :
    (component [scope] edges).Nodup ∧
      (Gathering.visit edges)^[(component [scope] edges).length] ⟨[scope], [scope]⟩ =
        ⟨component [scope] edges, []⟩ := by
  obtain ⟨n, hvisits, hlength⟩ := Gathering.exists_visits edges ⟨[scope], [scope]⟩
  obtain rfl : n = (component [scope] edges).length := (Nat.add_right_cancel hlength).symm
  exact ⟨Gathering.nodup_finish edges (List.nodup_singleton scope), hvisits⟩

/-- The tokens of a source are in order of their starts. -/
theorem pairwise_start (source : Bytes) :
    (Token.scan source).Pairwise fun t u => t.start < u.start := by
  refine (Token.pairwise_before (apart_scan source)).imp_of_mem fun ht _ hbefore => ?_
  have hlt := ((apart_scan source).bounds _ ht).2.1
  exact Nat.lt_of_lt_of_le hlt hbefore.1

/-- The occurrences of a variable are, in the order of the source and without repetition,
the variables of its spelling in the scopes that can be reached from its own, and it is
one of them. The scopes are gathered in as many visits as there are. -/
theorem occurrences_component (source : Bytes) {target : Token}
    (hmem : target ∈ Token.scan source) (hkind : target.kind = .variable) :
    let tokens := Token.scan source
    let scopes := Scopes.ofTokens tokens
    let edges := captureEdges scopes target.value tokens
    let shared := component [scopes.of? target] edges
    (occurrences tokens target).Pairwise (fun t u => t.start < u.start) ∧
      (∀ t, t ∈ occurrences tokens target ↔
        t ∈ tokens ∧ t.kind = .variable ∧ t.value = target.value ∧
          (captureGraph tokens target.value).Reachable (scopes.of? target) (scopes.of? t)) ∧
      target ∈ occurrences tokens target ∧
      shared.Nodup ∧
      (Gathering.visit edges)^[shared.length] ⟨[scopes.of? target], [scopes.of? target]⟩ =
        ⟨shared, []⟩ := by
  intro tokens scopes edges shared
  exact ⟨(pairwise_start source).filter _, mem_occurrences_iff (apart_scan source) target,
    mem_occurrences_self hmem hkind, visits_component _ _⟩

/-- A variable that is captured twice, seen from the inner closure. A closure without a
capture has its own. -/
theorem occurrences_component_nested :
    let source := Utf8.encode
      "$a; function () use ($a) { function () use ($a) { $a; } function () { $a; } }"
    let tokens := Token.scan source
    let scopes := Scopes.ofTokens tokens
    let target : Token := ⟨.variable, 50, Utf8.encode "$a"⟩
    target ∈ tokens ∧ target.kind = .variable ∧
      (occurrences tokens target).map Token.start = [0, 21, 44, 50] ∧
      ∀ t, t ∈ occurrences tokens target ↔
        t ∈ tokens ∧ t.kind = .variable ∧ t.value = target.value ∧
          (captureGraph tokens target.value).Reachable (scopes.of? target) (scopes.of? t) := by
  intro source tokens scopes target
  have hmem : target ∈ tokens := by decide +kernel
  obtain ⟨-, hfound, -⟩ := occurrences_component source hmem rfl
  exact ⟨hmem, rfl, by decide +kernel, hfound⟩

end RenameServer.Variable
