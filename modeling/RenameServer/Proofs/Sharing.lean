import Mathlib.Data.Set.Function
import Mathlib.Logic.Function.Iterate
import Mathlib.Logic.Relation
import Mathlib.Tactic.Tauto
import RenameServer.Rename.Variable

/-!
Which scopes share a variable. The scopes that are gathered from some first ones
are exactly those that a chain of edges joins to one of them, edges being taken
in both directions. Being joined is an equivalence, so a variable has the same
occurrences from each of its occurrences.
-/
namespace RenameServer.Variable

open Relation (EqvGen)

/-- Two scopes that a chain of edges joins. -/
def Joined (edges : List (Scope × Scope)) : Scope → Scope → Prop :=
  EqvGen fun a b => (a, b) ∈ edges

/-- What no edge leaves or enters, no chain of edges leaves or enters. -/
theorem Joined.iff {edges : List (Scope × Scope)} {p : Scope → Prop}
    (hedge : ∀ e ∈ edges, p e.1 ↔ p e.2) {a b : Scope} (h : Joined edges a b) : p a ↔ p b := by
  induction h with
  | rel a b hab => exact hedge (a, b) hab
  | refl a => exact Iff.rfl
  | symm a b _ ih => exact ih.symm
  | trans a b c _ _ ihab ihbc => exact ihab.trans ihbc

theorem Joined.mono {edges more : List (Scope × Scope)} (hsub : ∀ e ∈ edges, e ∈ more)
    {a b : Scope} (h : Joined edges a b) : Joined more a b :=
  EqvGen.mono (fun a b hab => hsub (a, b) hab) a b h

theorem mem_neighbours {edges : List (Scope × Scope)} {scope s : Scope} :
    s ∈ neighbours edges scope ↔ (scope, s) ∈ edges ∨ (s, scope) ∈ edges := by
  rw [neighbours, List.mem_filterMap]
  constructor
  · rintro ⟨⟨a, b⟩, he, hend⟩
    dsimp only at hend
    split_ifs at hend with ha hb
    · obtain rfl := Option.some.inj hend
      exact .inl (ha ▸ he)
    · obtain rfl := Option.some.inj hend
      exact .inr (hb ▸ he)
  · rintro (he | he)
    · exact ⟨_, he, if_pos rfl⟩
    · refine ⟨_, he, ?_⟩
      by_cases hs : s = scope
      · rw [if_pos hs, hs]
      · rw [if_neg hs, if_pos rfl]

theorem joined_of_mem_neighbours {edges : List (Scope × Scope)} {scope s : Scope}
    (h : s ∈ neighbours edges scope) : Joined edges scope s := by
  rcases mem_neighbours.mp h with he | he
  · exact .rel _ _ he
  · exact .symm _ _ (.rel _ _ he)

namespace Gathering

variable {edges : List (Scope × Scope)} {g : Gathering}

theorem mem_shared_foldl_add (found : List Scope) (g : Gathering) (s : Scope) :
    s ∈ (found.foldl add g).shared ↔ s ∈ g.shared ∨ s ∈ found := by
  induction found generalizing g with
  | nil => simp
  | cons scope found ih =>
    rw [List.foldl_cons, ih, add]
    split_ifs with hscope
    · grind
    · simp only [List.mem_cons]
      tauto

theorem mem_pending_foldl_add (found : List Scope) (g : Gathering) (s : Scope) :
    s ∈ (found.foldl add g).pending ↔ s ∈ g.pending ∨ s ∈ found ∧ s ∉ g.shared := by
  induction found generalizing g with
  | nil => simp
  | cons scope found ih =>
    rw [List.foldl_cons, ih, add]
    split_ifs with hscope <;> grind

/-- All that is pending is found, and so are the neighbours of whatever is found
and not pending. -/
structure Followed (edges : List (Scope × Scope)) (g : Gathering) : Prop where
  found : ∀ s ∈ g.pending, s ∈ g.shared
  closed : ∀ s ∈ g.shared, s ∉ g.pending → ∀ t ∈ neighbours edges s, t ∈ g.shared

theorem visit_cons {scope : Scope} {rest : List Scope} (h : g.pending = scope :: rest) :
    g.visit edges = (neighbours edges scope).foldl add ⟨g.shared, rest⟩ := by
  rw [visit, h]

theorem Followed.visit (h : g.Followed edges) : (g.visit edges).Followed edges := by
  cases hpending : g.pending with
  | nil => rwa [Gathering.visit, hpending]
  | cons scope rest =>
    have hfound := h.found
    have hclosed := h.closed
    rw [hpending] at hfound hclosed
    rw [visit_cons hpending]
    refine ⟨fun s hs => ?_, fun s hs hdone t ht => ?_⟩
    · rw [mem_pending_foldl_add] at hs
      rw [mem_shared_foldl_add]
      rcases hs with hs | ⟨hs, -⟩
      · exact .inl (hfound s (List.mem_cons_of_mem _ hs))
      · exact .inr hs
    · rw [mem_pending_foldl_add] at hdone
      rw [mem_shared_foldl_add] at hs ⊢
      by_cases hscope : s = scope
      · exact .inr (hscope ▸ ht)
      · -- what has just been found is pending
        have hold : s ∈ g.shared := by tauto
        exact .inl (hclosed s hold (by simp only [List.mem_cons]; tauto) t ht)

/-- A visit finds only what is joined to a scope found before. -/
theorem Followed.exists_joined_visit (h : g.Followed edges) (x : Scope) :
    (∃ a ∈ (g.visit edges).shared, Joined edges a x) ↔ ∃ a ∈ g.shared, Joined edges a x := by
  cases hpending : g.pending with
  | nil => rw [Gathering.visit, hpending]
  | cons scope rest =>
    have hscope : scope ∈ g.shared := h.found scope (hpending ▸ List.mem_cons_self)
    simp only [visit_cons hpending, mem_shared_foldl_add]
    constructor
    · rintro ⟨a, ha | ha, hjoined⟩
      · exact ⟨a, ha, hjoined⟩
      · exact ⟨scope, hscope, .trans _ _ _ (joined_of_mem_neighbours ha) hjoined⟩
    · rintro ⟨a, ha, hjoined⟩
      exact ⟨a, .inl ha, hjoined⟩

/-- When nothing is pending, no chain of edges leads away from what is found. -/
theorem Followed.exists_joined_iff (h : g.Followed edges) (hnone : g.pending = []) (x : Scope) :
    (∃ a ∈ g.shared, Joined edges a x) ↔ x ∈ g.shared := by
  constructor
  · rintro ⟨a, ha, hjoined⟩
    have hclosed : ∀ s ∈ g.shared, ∀ t ∈ neighbours edges s, t ∈ g.shared := fun s hs =>
      h.closed s hs (by simp [hnone])
    have hedge : ∀ e ∈ edges, e.1 ∈ g.shared ↔ e.2 ∈ g.shared := fun e he =>
      ⟨fun hs => hclosed _ hs _ (mem_neighbours.mpr (.inl he)),
        fun hs => hclosed _ hs _ (mem_neighbours.mpr (.inr he))⟩
    exact (hjoined.iff (p := (· ∈ g.shared)) hedge).mp ha
  · intro hx
    exact ⟨x, hx, .refl x⟩

theorem Followed.mem_finish (h : g.Followed edges) (x : Scope) :
    x ∈ finish edges g ↔ ∃ a ∈ g.shared, Joined edges a x := by
  fun_induction finish edges g with
  | case1 g hnone => exact (h.exists_joined_iff hnone x).symm
  | case2 g hpending ih => rw [ih h.visit, h.exists_joined_visit]

theorem nodup_foldl_add (found : List Scope) (h : g.shared.Nodup) :
    (found.foldl add g).shared.Nodup := by
  induction found generalizing g with
  | nil => exact h
  | cons scope found ih =>
    rw [List.foldl_cons]
    apply ih
    unfold add
    split_ifs with hscope
    · exact h
    · exact List.nodup_cons.mpr ⟨hscope, h⟩

/-- No scope is found twice. -/
theorem nodup_finish (edges : List (Scope × Scope)) (h : g.shared.Nodup) :
    (finish edges g).Nodup := by
  fun_induction finish edges g with
  | case1 g hnone => exact h
  | case2 g hpending ih =>
    obtain ⟨scope, rest, hcons⟩ := List.exists_cons_of_ne_nil hpending
    apply ih
    rw [visit_cons hcons]
    exact nodup_foldl_add _ h

/-- Each scope that an addition finds is pending then. -/
theorem length_foldl_add (found : List Scope) (g : Gathering) :
    (found.foldl add g).shared.length + g.pending.length =
      (found.foldl add g).pending.length + g.shared.length := by
  induction found generalizing g with
  | nil => exact Nat.add_comm _ _
  | cons scope found ih =>
    have hrest := ih (g.add scope)
    rw [List.foldl_cons]
    unfold add at hrest ⊢
    split_ifs at hrest ⊢
    · exact hrest
    · simp only [List.length_cons] at hrest
      omega

/-- As many visits as there are scopes to be found, beyond those that have been
visited, leave nothing pending. -/
theorem exists_visits (edges : List (Scope × Scope)) (g : Gathering) :
    ∃ n, (visit edges)^[n] g = ⟨finish edges g, []⟩ ∧
      (finish edges g).length + g.pending.length = n + g.shared.length := by
  fun_induction finish edges g with
  | case1 g hnone =>
    refine ⟨0, ?_, ?_⟩
    · rw [Function.iterate_zero_apply, ← hnone]
    · rw [hnone, List.length_nil]
      omega
  | case2 g hpending ih =>
    obtain ⟨n, hvisits, hlength⟩ := ih
    refine ⟨n + 1, hvisits, ?_⟩
    obtain ⟨scope, rest, hcons⟩ := List.exists_cons_of_ne_nil hpending
    have hvisit := length_foldl_add (neighbours edges scope) ⟨g.shared, rest⟩
    rw [← visit_cons hcons] at hvisit
    simp only [hcons, List.length_cons] at hvisit ⊢
    omega

end Gathering

/-- The gathered scopes are those that are joined to a first one. -/
theorem mem_component_iff (shared : List Scope) (edges : List (Scope × Scope)) (x : Scope) :
    x ∈ component shared edges ↔ ∃ a ∈ shared, Joined edges a x := by
  have hstart : Gathering.Followed edges ⟨shared, shared⟩ :=
    ⟨fun s hs => hs, fun s hs hdone => absurd hs hdone⟩
  exact hstart.mem_finish x

/-- A component can be gathered from any of its scopes. -/
theorem mem_component_of_mem {edges : List (Scope × Scope)} {a b : Scope}
    (h : b ∈ component [a] edges) (x : Scope) :
    x ∈ component [b] edges ↔ x ∈ component [a] edges := by
  have hab : Joined edges a b := by simpa [mem_component_iff] using h
  simp only [mem_component_iff, List.mem_singleton, exists_eq_left]
  constructor
  · exact fun hbx => .trans _ _ _ hab hbx
  · exact fun hax => .trans _ _ _ hab.symm hax

/-- Edges away from a component make no difference to it. -/
theorem mem_component_of_sub {edges kept : List (Scope × Scope)} {a : Scope}
    (hsub : ∀ e ∈ kept, e ∈ edges)
    (hkept : ∀ e ∈ edges, e.1 ∈ component [a] edges → e ∈ kept) (x : Scope) :
    x ∈ component [a] kept ↔ x ∈ component [a] edges := by
  simp only [mem_component_iff, List.mem_singleton, exists_eq_left] at hkept ⊢
  constructor
  · exact fun h => h.mono hsub
  · intro h
    have hedge : ∀ e ∈ edges, Joined kept a e.1 ↔ Joined kept a e.2 := by
      intro e he
      constructor
      · intro hfirst
        have hmem := hkept e he (hfirst.mono hsub)
        exact .trans _ _ _ hfirst (.rel e.1 e.2 hmem)
      · intro hsecond
        have hback : Joined edges a e.1 :=
          .trans _ _ _ (hsecond.mono hsub) (.symm _ _ (.rel e.1 e.2 he))
        exact .trans _ _ _ hsecond (.symm _ _ (.rel e.1 e.2 (hkept e he hback)))
    exact (h.iff (p := Joined kept a) hedge).mp (.refl a)

theorem Joined.map (f : Scope → Scope) {edges : List (Scope × Scope)} {a b : Scope}
    (h : Joined edges a b) : Joined (edges.map (Prod.map f f)) (f a) (f b) := by
  induction h with
  | rel a b hab => exact .rel _ _ (List.mem_map_of_mem hab)
  | refl a => exact .refl _
  | symm a b _ ih => exact .symm _ _ ih
  | trans a b c _ _ ihab ihbc => exact .trans _ _ _ ihab ihbc

/-- A component whose scopes move apart moves as a whole. -/
theorem mem_component_map {f : Scope → Scope} {scopes : Set Scope} (hf : Set.InjOn f scopes)
    {edges : List (Scope × Scope)} (hedges : ∀ e ∈ edges, e.1 ∈ scopes ∧ e.2 ∈ scopes)
    {a x : Scope} (ha : a ∈ scopes) (hx : x ∈ scopes) :
    f x ∈ component [f a] (edges.map (Prod.map f f)) ↔ x ∈ component [a] edges := by
  simp only [mem_component_iff, List.mem_singleton, exists_eq_left]
  constructor
  · intro h
    have hback : ∀ y ∈ scopes, Function.invFunOn f scopes (f y) = y := hf.leftInvOn_invFunOn
    have hsame : (edges.map (Prod.map f f)).map
        (Prod.map (Function.invFunOn f scopes) (Function.invFunOn f scopes)) = edges := by
      rw [List.map_map]
      refine (List.map_congr_left fun e he => ?_).trans (List.map_id edges)
      exact Prod.ext (hback e.1 (hedges e he).1) (hback e.2 (hedges e he).2)
    have hjoined := h.map (Function.invFunOn f scopes)
    rwa [hsame, hback a ha, hback x hx] at hjoined
  · exact fun h => h.map f

/-- A variable is an occurrence of itself. -/
theorem mem_occurrences_self {tokens : List Token} {target : Token} (hmem : target ∈ tokens)
    (hkind : target.kind = .variable) : target ∈ occurrences tokens target := by
  apply List.mem_filter.mpr
  refine ⟨hmem, decide_eq_true ⟨hkind, rfl, ?_⟩⟩
  exact (mem_component_iff ..).mpr ⟨_, List.mem_singleton_self _, .refl _⟩

/-- A variable has the same occurrences from each of its occurrences. -/
theorem occurrences_of_mem {tokens : List Token} {target t : Token}
    (h : t ∈ occurrences tokens target) : occurrences tokens t = occurrences tokens target := by
  obtain ⟨-, hfound⟩ := List.mem_filter.mp h
  obtain ⟨-, hvalue, hshared⟩ := of_decide_eq_true hfound
  simp only [occurrences, hvalue]
  refine List.filter_congr fun u _ => ?_
  simp only [mem_component_of_mem hshared]

end RenameServer.Variable
