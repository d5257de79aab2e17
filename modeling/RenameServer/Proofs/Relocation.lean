import Mathlib.Data.List.Basic
import Mathlib.Data.List.Find
import Mathlib.Order.Monotone.Basic
import RenameServer.Proofs.Cursor
import RenameServer.Proofs.Scoping
import RenameServer.Proofs.Sharing

/-!
Tokens at new places. Bodies and captures begin and end where tokens do. If the
new places of these offsets are in the same order as the old ones, everything
moves along: the closure that captures a variable, the scope around it, and
with them the occurrences of a variable, as long as these keep a spelling in
common and share it with no other variable.
-/
namespace RenameServer.Scopes

open Utf8 (Bytes)
open Respelling

/-- The offsets where tokens start or stop. -/
def bounds (tokens : List Token) : Set Nat := {o | ∃ t ∈ tokens, o = t.start ∨ o = t.stop}

theorem start_mem_bounds {tokens : List Token} {t : Token} (ht : t ∈ tokens) :
    t.start ∈ bounds tokens := ⟨t, ht, .inl rfl⟩

theorem stop_mem_bounds {tokens : List Token} {t : Token} (ht : t ∈ tokens) :
    t.stop ∈ bounds tokens := ⟨t, ht, .inr rfl⟩

/-- A span between two such offsets. -/
def Bounded (tokens : List Token) (s : Span) : Prop :=
  ∃ a ∈ bounds tokens, ∃ b ∈ bounds tokens, s = ⟨a, b⟩

/-- Scopes that begin and end at tokens, and captures of variables. -/
structure Anchored (tokens : List Token) (scopes : Scopes) : Prop where
  spans : ∀ s ∈ scopes.spans, Bounded tokens s
  captures : ∀ c ∈ scopes.captures,
    (∃ v ∈ tokens, v.kind = .variable ∧ v.start = c.1) ∧ Bounded tokens c.2

/-- What a declaration has noted of the tokens. -/
def Noted (tokens : List Token) (keyword : Option Nat) (used : List Token) : Prop :=
  (∀ k ∈ keyword, k ∈ bounds tokens) ∧ ∀ v ∈ used, v ∈ tokens ∧ v.kind = .variable

theorem noted_none (tokens : List Token) : Noted tokens none [] :=
  ⟨fun _ hk => absurd hk (Option.not_mem_none _), List.forall_mem_nil _⟩

/-- A scan that has noted tokens only. -/
structure Scan.Anchored (tokens : List Token) (s : Scan) : Prop where
  pending : Noted tokens s.pending.keyword s.pending.used
  opened : ∀ o ∈ s.opened, Noted tokens o.1 o.2
  found : s.found.Anchored tokens

variable {tokens : List Token}

theorem Scan.Anchored.close {s : Scan} (h : s.Anchored tokens) {stop : Nat}
    (hstop : stop ∈ bounds tokens) : (s.close stop).Anchored tokens := by
  unfold Scan.close
  split
  · exact h
  · next used outer heq =>
    have hopened := h.opened
    rw [heq] at hopened
    exact ⟨h.pending, fun o ho => hopened o (List.mem_cons_of_mem _ ho), h.found⟩
  · next start used outer heq =>
    have hopened := h.opened
    rw [heq] at hopened
    obtain ⟨hkeyword, hused⟩ := hopened _ (List.mem_cons_self ..)
    have hspan : Bounded tokens ⟨start, stop⟩ := ⟨start, hkeyword start rfl, stop, hstop, rfl⟩
    refine ⟨h.pending, fun o ho => hopened o (List.mem_cons_of_mem _ ho), ?_, ?_⟩
    · intro x hx
      rcases List.mem_append.mp hx with hx | hx
      · exact h.found.spans x hx
      · rw [List.mem_singleton.mp hx]
        exact hspan
    · intro c hc
      rcases List.mem_append.mp hc with hc | hc
      · exact h.found.captures c hc
      · obtain ⟨v, hv, rfl⟩ := List.mem_map.mp hc
        exact ⟨⟨v, (hused v hv).1, (hused v hv).2, rfl⟩, hspan⟩

theorem Scan.Anchored.declare {s : Scan} (h : s.Anchored tokens) {t : Token} (ht : t ∈ tokens) :
    (s.declare t).Anchored tokens := by
  unfold Scan.declare
  split_ifs with hword huse hvariable
  · refine ⟨⟨?_, List.forall_mem_nil _⟩, h.opened, h.found⟩
    intro k hk
    obtain rfl := Option.some.inj hk
    exact start_mem_bounds ht
  · exact ⟨h.pending, h.opened, h.found⟩
  · refine ⟨⟨h.pending.1, ?_⟩, h.opened, h.found⟩
    intro v hv
    rcases List.mem_append.mp hv with hv | hv
    · exact h.pending.2 v hv
    · rw [List.mem_singleton.mp hv]
      exact ⟨ht, hvariable.1⟩
  · exact ⟨noted_none tokens, h.opened, h.found⟩
  · refine ⟨noted_none tokens, ?_, h.found⟩
    intro o ho
    rcases List.mem_cons.mp ho with rfl | ho
    · exact h.pending
    · exact h.opened o ho
  · exact h.close (stop_mem_bounds ht)
  · exact h

theorem Scan.Anchored.step {s : Scan} (h : s.Anchored tokens) {t : Token} (ht : t ∈ tokens) :
    (s.step t).Anchored tokens := by
  unfold Scan.step
  split
  · exact ⟨h.pending, h.opened, h.found⟩
  · have hdeclare := h.declare ht
    exact ⟨hdeclare.pending, hdeclare.opened, hdeclare.found⟩

theorem Scan.Anchored.foldl {s : Scan} (h : s.Anchored tokens) {more : List Token}
    (hmore : ∀ t ∈ more, t ∈ tokens) : (more.foldl Scan.step s).Anchored tokens := by
  induction more generalizing s with
  | nil => exact h
  | cons t rest ih =>
    obtain ⟨ht, hrest⟩ := List.forall_mem_cons.mp hmore
    exact ih (h.step ht) hrest

theorem anchored_ofTokens (tokens : List Token) : (ofTokens tokens).Anchored tokens := by
  have hinitial : Scan.initial.Anchored tokens :=
    ⟨noted_none tokens, List.forall_mem_nil _, List.forall_mem_nil _, List.forall_mem_nil _⟩
  exact (hinitial.foldl fun t ht => ht).found

theorem captor?_mem {scopes : Scopes} {o : Nat} {closure : Span}
    (h : scopes.captor? o = some closure) : (o, closure) ∈ scopes.captures := by
  obtain ⟨c, hc, rfl⟩ := Option.map_eq_some_iff.mp h
  have hstart := List.find?_some (p := fun c : Nat × Span => c.1 = o) hc
  rw [← of_decide_eq_true hstart]
  exact List.mem_of_find?_eq_some hc

/-! ### Spans -/

section

variable {place : Nat → Nat} (hplace : StrictMonoOn place (bounds tokens))

include hplace

theorem moved_inj {s r : Span} (hs : Bounded tokens s) (hr : Bounded tokens r) :
    moved place s = moved place r ↔ s = r := by
  obtain ⟨a, ha, b, hb, rfl⟩ := hs
  obtain ⟨c, hc, d, hd, rfl⟩ := hr
  simp only [moved, Int.toNat_natCast, Span.mk.injEq, Int.natCast_inj, hplace.eq_iff_eq ha hc,
    hplace.eq_iff_eq hb hd]

theorem contains_moved {s : Span} (hs : Bounded tokens s) {o : Nat} (ho : o ∈ bounds tokens) :
    (moved place s).contains (place o) = s.contains o := by
  obtain ⟨a, ha, b, hb, rfl⟩ := hs
  simp only [Span.contains, moved, Int.toNat_natCast, Int.ofNat_le, Int.ofNat_lt,
    hplace.le_iff_le ha ho, hplace.lt_iff_lt ho hb]

theorem start_moved_le {s r : Span} (hs : Bounded tokens s) (hr : Bounded tokens r) :
    (moved place s).start ≤ (moved place r).start ↔ s.start ≤ r.start := by
  obtain ⟨a, ha, b, hb, rfl⟩ := hs
  obtain ⟨c, hc, d, hd, rfl⟩ := hr
  simp only [moved, Int.toNat_natCast, Int.ofNat_le, hplace.le_iff_le ha hc]

/-- The innermost span around an offset moves with the spans. -/
theorem innermost?_moved {spans : List Span} (hspans : ∀ s ∈ spans, Bounded tokens s) {o : Nat}
    (ho : o ∈ bounds tokens) :
    Span.innermost? (spans.map (moved place)) (place o) =
      (Span.innermost? spans o).map (moved place) := by
  have hfold : ∀ found : Option Span, (∀ f ∈ found, Bounded tokens f) →
      (spans.map (moved place)).foldl (fun found s =>
          if s.contains (place o) ∧ found.all (fun f => f.start ≤ s.start) then some s else found)
          (found.map (moved place)) =
        (spans.foldl (fun found s =>
          if s.contains o ∧ found.all (fun f => f.start ≤ s.start) then some s else found)
          found).map (moved place) := by
    induction spans with
    | nil => exact fun found _ => rfl
    | cons s rest ih =>
      obtain ⟨hs, hrest⟩ := List.forall_mem_cons.mp hspans
      intro found hfound
      have hall : (found.map (moved place)).all (fun f => f.start ≤ (moved place s).start) =
          found.all fun f => f.start ≤ s.start := by
        cases found with
        | none => rfl
        | some f =>
          simp only [Option.map_some, Option.all_some, start_moved_le hplace (hfound f rfl) hs]
      simp only [List.map_cons, List.foldl_cons, contains_moved hplace hs ho, hall]
      split
      · apply ih hrest (some s)
        intro f hf
        obtain rfl := Option.some.inj hf
        exact hs
      · exact ih hrest found hfound
  exact hfold none fun f hf => absurd hf (Option.not_mem_none f)

/-! ### Captures and scopes -/

variable {scopes : Scopes} (hscopes : scopes.Anchored tokens)

include hscopes

theorem captor?_image {o : Nat} (ho : o ∈ bounds tokens) :
    (scopes.image place).captor? (place o) = (scopes.captor? o).map (moved place) := by
  have hsame : scopes.captures.find? (fun c => place c.1 = place o) =
      scopes.captures.find? fun c => c.1 = o := by
    apply List.find?_congr
    intro c hc
    obtain ⟨⟨v, hv, -, hstart⟩, -⟩ := hscopes.captures c hc
    have hbound : c.1 ∈ bounds tokens := hstart ▸ start_mem_bounds hv
    simp only [hplace.eq_iff_eq hbound ho]
  have hfind : (scopes.image place).captures.find? (fun c => c.1 = place o) =
      (scopes.captures.find? fun c => place c.1 = place o).map
        fun c => (place c.1, moved place c.2) := List.find?_map ..
  rw [captor?, captor?, hfind, hsame, Option.map_map, Option.map_map]
  rfl

theorem enclosing?_image {s : Span} (hs : Bounded tokens s) :
    (scopes.image place).enclosing? (moved place s) = (scopes.enclosing? s).map (moved place) := by
  have hfilter : ((scopes.image place).spans.filter fun r => r ≠ moved place s) =
      (scopes.spans.filter fun r => r ≠ s).map (moved place) := by
    have himage : (scopes.image place).spans = scopes.spans.map (moved place) := rfl
    rw [himage, List.filter_map]
    congr 1
    apply List.filter_congr
    intro r hr
    simp only [Function.comp_apply, ne_eq, moved_inj hplace (hscopes.spans r hr) hs]
  have hrest : ∀ r ∈ scopes.spans.filter fun r => r ≠ s, Bounded tokens r :=
    fun r hr => hscopes.spans r (List.mem_filter.mp hr).1
  obtain ⟨a, ha, b, hb, rfl⟩ := hs
  have hinner := innermost?_moved hplace hrest ha
  rw [enclosing?, hfilter, enclosing?, ← hinner]
  rfl

/-- The scope of a token moves with the token. -/
theorem of?_image (spell : Token → Option String) {t : Token} (ht : t ∈ tokens) :
    (scopes.image place).of? (respell spell place t) = (scopes.of? t).map (moved place) := by
  have hstart := start_mem_bounds ht
  have hcaptor : (scopes.image place).captor? (respell spell place t).start =
      (scopes.captor? t.start).map (moved place) := captor?_image hplace hscopes hstart
  rw [of?, of?, hcaptor]
  cases hclosure : scopes.captor? t.start with
  | none => exact innermost?_moved hplace hscopes.spans hstart
  | some closure =>
    exact enclosing?_image hplace hscopes (hscopes.captures _ (captor?_mem hclosure)).2

end

theorem innermost?_mem {spans : List Span} {o : Int} {s : Span}
    (h : Span.innermost? spans o = some s) : s ∈ spans := by
  have hfold : ∀ (more : List Span) (found : Option Span), (∀ f ∈ found, f ∈ spans) →
      (∀ r ∈ more, r ∈ spans) → ∀ f ∈ more.foldl (fun found s =>
        if s.contains o ∧ found.all (fun f => f.start ≤ s.start) then some s else found) found,
        f ∈ spans := by
    intro more
    induction more with
    | nil => exact fun found hfound _ => hfound
    | cons r rest ih =>
      intro found hfound hmore
      obtain ⟨hr, hrest⟩ := List.forall_mem_cons.mp hmore
      rw [List.foldl_cons]
      apply ih _ _ hrest
      split
      · intro f hf
        obtain rfl := Option.some.inj hf
        exact hr
      · exact hfound
  exact hfold spans none (fun f hf => absurd hf (Option.not_mem_none f)) (fun r hr => hr) s h

end RenameServer.Scopes

namespace RenameServer.Variable

open Respelling Scopes

variable {tokens : List Token} {spell : Token → Option String} {place : Nat → Nat}

/-- The scopes that begin and end at tokens. -/
def scopesOf (tokens : List Token) : Set Scope := {x | ∀ s ∈ x, Bounded tokens s}

theorem injOn_moved (hplace : StrictMonoOn place (bounds tokens)) :
    Set.InjOn (Option.map (moved place)) (scopesOf tokens) := by
  intro x hx y hy h
  cases x with
  | none => exact (Option.map_eq_none_iff.mp h.symm).symm
  | some s =>
    cases y with
    | none => cases h
    | some r =>
      have hsame := (moved_inj hplace (hx s rfl) (hy r rfl)).mp (Option.some.inj h)
      rw [hsame]

theorem enclosing?_mem {scopes : Scopes} (h : scopes.Anchored tokens) (s : Span) :
    scopes.enclosing? s ∈ scopesOf tokens := by
  intro r hr
  exact h.spans r (List.mem_filter.mp (innermost?_mem hr)).1

theorem of?_mem {scopes : Scopes} (h : scopes.Anchored tokens) (t : Token) :
    scopes.of? t ∈ scopesOf tokens := by
  unfold Scopes.of?
  split
  · exact enclosing?_mem h _
  · exact fun r hr => h.spans r (innermost?_mem hr)

/-- The captures of the tokens that a test selects, as edges. -/
def edgesOf (scopes : Scopes) (selected : Token → Bool) (tokens : List Token) :
    List (Scope × Scope) :=
  tokens.filterMap fun t =>
    match scopes.captor? t.start with
    | some closure =>
      if selected t then some (scopes.enclosing? closure, some closure) else none
    | none => none

theorem captureEdges_eq (scopes : Scopes) (spelling : Utf8.Bytes) (tokens : List Token) :
    captureEdges scopes spelling tokens = edgesOf scopes (fun t => t.value = spelling) tokens := by
  unfold captureEdges edgesOf
  apply List.filterMap_congr
  intro t _
  cases scopes.captor? t.start with
  | none => rfl
  | some closure =>
    by_cases ht : t.value = spelling
    · exact (if_pos ht).trans (if_pos (decide_eq_true ht)).symm
    · exact (if_neg ht).trans (if_neg (mt of_decide_eq_true ht)).symm

theorem mem_edgesOf {scopes : Scopes} {selected : Token → Bool} {e : Scope × Scope} :
    e ∈ edgesOf scopes selected tokens ↔ ∃ t ∈ tokens, selected t = true ∧
      ∃ closure, scopes.captor? t.start = some closure ∧
        e = (scopes.enclosing? closure, some closure) := by
  rw [edgesOf, List.mem_filterMap]
  constructor
  · rintro ⟨t, ht, hedge⟩
    split at hedge
    · next closure hclosure =>
      split at hedge
      · next hselected => exact ⟨t, ht, hselected, closure, hclosure, (Option.some.inj hedge).symm⟩
      · cases hedge
    · cases hedge
  · rintro ⟨t, ht, hselected, closure, hclosure, rfl⟩
    refine ⟨t, ht, ?_⟩
    simp only [hclosure, if_pos hselected]

/-- What is captured is a variable. -/
theorem kind_of_captor? {base limit : Nat} (hapart : Apart base limit tokens) {scopes : Scopes}
    (h : scopes.Anchored tokens) {t : Token} (ht : t ∈ tokens) {closure : Span}
    (hclosure : scopes.captor? t.start = some closure) : t.kind = .variable := by
  obtain ⟨⟨v, hv, hkind, hstart⟩, -⟩ := h.captures _ (captor?_mem hclosure)
  have hcontains := Token.contains_start hapart hv
  rw [hstart] at hcontains
  obtain rfl := Token.eq_of_contains hapart hv ht hcontains (Token.contains_start hapart ht)
  exact hkind

theorem edgesOf_mem {scopes : Scopes} (h : scopes.Anchored tokens) {selected : Token → Bool}
    {e : Scope × Scope} (he : e ∈ edgesOf scopes selected tokens) :
    e.1 ∈ scopesOf tokens ∧ e.2 ∈ scopesOf tokens := by
  obtain ⟨t, -, -, closure, hclosure, rfl⟩ := mem_edgesOf.mp he
  refine ⟨enclosing?_mem h closure, ?_⟩
  intro s hs
  obtain rfl := Option.some.inj hs
  exact (h.captures _ (captor?_mem hclosure)).2

/-- The edges move with the tokens. -/
theorem captureEdges_image (hplace : StrictMonoOn place (bounds tokens)) {scopes : Scopes}
    (h : scopes.Anchored tokens) (spelling : Utf8.Bytes) :
    captureEdges (scopes.image place) spelling (tokens.map (respell spell place)) =
      (edgesOf scopes (fun t => value spell t = spelling) tokens).map
        (Prod.map (Option.map (moved place)) (Option.map (moved place))) := by
  rw [captureEdges_eq, edgesOf, edgesOf, List.filterMap_map, List.map_filterMap]
  apply List.filterMap_congr
  intro t ht
  have hcaptor : (scopes.image place).captor? (respell spell place t).start =
      (scopes.captor? t.start).map (moved place) := captor?_image hplace h (start_mem_bounds ht)
  simp only [Function.comp_apply, hcaptor]
  cases hclosure : scopes.captor? t.start with
  | none => rfl
  | some closure =>
    have hbounded := (h.captures _ (captor?_mem hclosure)).2
    simp only [Option.map_some, enclosing?_image hplace h hbounded]
    have hread : (respell spell place t).value = value spell t := rfl
    rw [hread]
    split <;> rfl

/-- The occurrences of a variable keep a spelling in common, and share it with no
other variable. -/
structure KeepsApart (spell : Token → Option String) (tokens : List Token) (target : Token) :
    Prop where
  common : ∀ t ∈ occurrences tokens target, value spell t = value spell target
  other : ∀ t ∈ tokens, t.kind = .variable → value spell t = value spell target →
    t.value = target.value

/-- The scopes that share a variable move along. -/
theorem mem_shared_image {base limit : Nat} (hapart : Apart base limit tokens)
    (hplace : StrictMonoOn place (bounds tokens)) {target : Token} (htarget : target ∈ tokens)
    (hkept : KeepsApart spell tokens target) {x : Scope} (hx : x ∈ scopesOf tokens) :
    let scopes := ofTokens tokens
    x.map (moved place) ∈ component [(scopes.image place).of? (respell spell place target)]
        (captureEdges (scopes.image place) (value spell target)
          (tokens.map (respell spell place))) ↔
      x ∈ component [scopes.of? target] (captureEdges scopes target.value tokens) := by
  intro scopes
  have hscopes : scopes.Anchored tokens := anchored_ofTokens tokens
  rw [captureEdges_image hplace hscopes, of?_image hplace hscopes spell htarget,
    mem_component_map (injOn_moved hplace) (fun e he => edgesOf_mem hscopes he)
      (of?_mem hscopes target) hx]
  apply mem_component_of_sub
  · intro e he
    obtain ⟨t, ht, hselected, closure, hclosure, rfl⟩ := mem_edgesOf.mp he
    have hkind := kind_of_captor? hapart hscopes ht hclosure
    have hvalue := hkept.other t ht hkind (of_decide_eq_true hselected)
    rw [captureEdges_eq]
    exact mem_edgesOf.mpr ⟨t, ht, decide_eq_true hvalue, closure, hclosure, rfl⟩
  · intro e he hshared
    rw [captureEdges_eq] at he
    obtain ⟨t, ht, hselected, closure, hclosure, rfl⟩ := mem_edgesOf.mp he
    have hkind := kind_of_captor? hapart hscopes ht hclosure
    -- a captured variable belongs to the scope around its closure
    have hscope : scopes.of? t = scopes.enclosing? closure := by rw [Scopes.of?, hclosure]
    have hoccurrence : t ∈ occurrences tokens target :=
      List.mem_filter.mpr ⟨ht, decide_eq_true
        ⟨hkind, of_decide_eq_true hselected, by rw [hscope]; exact hshared⟩⟩
    exact mem_edgesOf.mpr
      ⟨t, ht, decide_eq_true (hkept.common t hoccurrence), closure, hclosure, rfl⟩

/-- The occurrences of a variable move along. -/
theorem occurrences_respell {base limit : Nat} (hapart : Apart base limit tokens)
    (hcarried : ∀ t ∈ tokens, Carried spell place t) (hplace : StrictMonoOn place (bounds tokens))
    {target : Token} (htarget : target ∈ tokens) (hkept : KeepsApart spell tokens target) :
    occurrences (tokens.map (respell spell place)) (respell spell place target) =
      (occurrences tokens target).map (respell spell place) := by
  have hscopes := anchored_ofTokens tokens
  have hread : ∀ t, (respell spell place t).value = value spell t := fun t => rfl
  rw [occurrences, occurrences, ofTokens_respell hcarried, List.filter_map]
  congr 1
  apply List.filter_congr
  intro t ht
  have hshared := mem_shared_image hapart hplace htarget hkept (of?_mem hscopes t)
  rw [← of?_image hplace hscopes spell ht] at hshared
  simp only [Function.comp_apply, respell_kind, hread, hshared, decide_eq_decide]
  constructor
  · rintro ⟨hkind, hvalue, hscope⟩
    exact ⟨hkind, hkept.other t ht hkind hvalue, hscope⟩
  · rintro ⟨hkind, hvalue, hscope⟩
    have hoccurrence : t ∈ occurrences tokens target :=
      List.mem_filter.mpr ⟨ht, decide_eq_true ⟨hkind, hvalue, hscope⟩⟩
    exact ⟨hkind, hkept.common t hoccurrence, hscope⟩

end RenameServer.Variable
