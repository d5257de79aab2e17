import RenameServer.Proofs.Bodies

/-!
How the bodies of a source lie to each other. A body that begins inside another
one also ends there, unless the other one ends in the heading of the first: a
closing brace does not end a heading. So the spans are one after the other or one
inside the other except for such pairs, and only for such pairs the innermost span
around an offset is not inside the others around it.
-/
namespace RenameServer

open Utf8 (Bytes)
open Lexeme Respelling

namespace Span

/-- One after the other. -/
def Beside (a b : Span) : Prop := a.stop ≤ b.start ∨ b.stop ≤ a.start

/-- A span that is part of another one and not all of it. -/
def Inside (a b : Span) : Prop := b.start ≤ a.start ∧ a.stop ≤ b.stop ∧ a ≠ b

instance (a b : Span) : Decidable (a.Beside b) := inferInstanceAs (Decidable (_ ∨ _))

instance (a b : Span) : Decidable (a.Inside b) := inferInstanceAs (Decidable (_ ∧ _))

theorem contains_iff {s : Span} {o : Int} : s.contains o = true ↔ s.start ≤ o ∧ o < s.stop := by
  rw [contains, decide_eq_true_iff]

theorem innermost?_concat (spans : List Span) (s : Span) (o : Int) :
    innermost? (spans ++ [s]) o =
      if s.contains o ∧ (innermost? spans o).all (fun f => f.start ≤ s.start) then some s
      else innermost? spans o := by
  rw [innermost?, List.foldl_append]
  rfl

/-- The innermost span around an offset has the last start. -/
theorem innermost?_cases (spans : List Span) (o : Int) :
    (innermost? spans o = none ∧ ∀ r ∈ spans, ¬ r.contains o = true) ∨
      ∃ s ∈ spans, innermost? spans o = some s ∧ s.contains o = true ∧
        ∀ r ∈ spans, r.contains o = true → r.start ≤ s.start := by
  induction spans using List.reverseRecOn with
  | nil => exact .inl ⟨rfl, List.forall_mem_nil _⟩
  | append_singleton spans s ih =>
    have hall : ∀ {p : Span → Prop}, (∀ r ∈ spans, p r) → p s → ∀ r ∈ spans ++ [s], p r :=
      fun hspans hs => List.forall_mem_append.mpr ⟨hspans, List.forall_mem_singleton.mpr hs⟩
    rw [innermost?_concat]
    rcases ih with ⟨hnone, hout⟩ | ⟨f, hf, hsome, hcontains, hlast⟩
    · rw [hnone]
      by_cases hs : s.contains o = true
      · rw [if_pos ⟨hs, rfl⟩]
        exact .inr ⟨s, by simp, rfl, hs,
          hall (fun r hr hcontains => absurd hcontains (hout r hr)) fun _ => Int.le_refl _⟩
      · rw [if_neg fun h => hs h.1]
        exact .inl ⟨rfl, hall hout hs⟩
    · rw [hsome]
      by_cases hs : s.contains o = true ∧ f.start ≤ s.start
      · rw [if_pos ⟨hs.1, by simpa using hs.2⟩]
        exact .inr ⟨s, by simp, rfl, hs.1,
          hall (fun r hr hr' => Int.le_trans (hlast r hr hr') hs.2) fun _ => Int.le_refl _⟩
      · rw [if_neg fun h => hs ⟨h.1, by simpa using h.2⟩]
        refine .inr ⟨f, List.mem_append_left _ hf, rfl, hcontains, hall hlast fun hs' => ?_⟩
        exact Int.le_of_lt (Int.not_le.mp fun hle => hs ⟨hs', hle⟩)

end Span

namespace Scopes

/-! ### Two declarations -/

section

variable {source : Bytes}

/-- A token ends before the later ones start. -/
theorem stop_le_of_mem {l r : List Token} {t u : Token} (hsplit : Token.scan source = l ++ t :: r)
    (hu : u ∈ r) : t.stop ≤ u.start := by
  have hbefore := Token.pairwise_before (apart_scan source)
  rw [hsplit] at hbefore
  exact ((List.pairwise_cons.mp (List.pairwise_append.mp hbefore).2.1).1 u hu).1

theorem start_lt_stop {t : Token} (ht : t ∈ Token.scan source) : t.start < t.stop :=
  ((apart_scan source).bounds t ht).2.1

theorem exists_between {l l' r r' : List Token} {t u : Token}
    (hsplit : Token.scan source = l ++ t :: r) (hsplit' : Token.scan source = l' ++ u :: r')
    (hlt : t.start < u.start) :
    ∃ m, l' = l ++ t :: m ∧ r = m ++ u :: r' := by
  rcases split_cases (hsplit.symm.trans hsplit') with hbefore | ⟨-, rfl, -⟩ | ⟨m, -, hm⟩
  · exact hbefore
  · omega
  · have hle := stop_le_of_mem hsplit' (u := t) (by simp [hm])
    have hmem : u ∈ Token.scan source := by
      rw [hsplit']
      simp
    have hlength := start_lt_stop hmem
    omega

/-- A keyword is no brace. -/
theorem Declaration.keyword_no_brace (d : Declaration (Token.scan source)) :
    ¬ IsOpening d.heading.keyword ∧ ¬ IsClosing d.heading.keyword :=
  (not_mark_of_spelled ((apart_scan source).spelled _ d.keyword_mem) d.heading.isKeyword.ne_punct).2

/-- The second of two keywords is not in the heading of the first. -/
theorem Declaration.exists_between_keywords (d e : Declaration (Token.scan source))
    (hlt : d.heading.keyword.start < e.heading.keyword.start) :
    ∃ m, d.heading.further ++ d.opening :: (d.inside ++ d.closing :: d.after) =
        m ++ e.heading.keyword ::
          (e.heading.further ++ e.opening :: (e.inside ++ e.closing :: e.after)) ∧
      ∀ r, d.heading.further ≠ m ++ e.heading.keyword :: r := by
  obtain ⟨m, hbefore, hrest⟩ := exists_between d.keyword_split e.keyword_split hlt
  have hkeyword := e.heading.isKeyword
  rw [hbefore, ← List.singleton_append, ← List.append_assoc] at hkeyword
  exact ⟨m, hrest, fun r hr => d.heading.going m _ r hr (.inr (.inr hkeyword))⟩

/-- Of two declarations, the one that begins first ends before the other one begins, or
after the other one has ended, or in its heading. -/
theorem Declaration.nested (d e : Declaration (Token.scan source))
    (hlt : d.heading.keyword.start < e.heading.keyword.start) :
    d.closing.stop ≤ e.heading.keyword.start ∨ e.closing.stop < d.closing.stop ∨
      d.closing ∈ e.heading.further := by
  obtain ⟨hopening, hclosing⟩ := e.keyword_no_brace
  obtain ⟨m, hrest, hheading⟩ := d.exists_between_keywords e hlt
  -- the second keyword is behind the opening brace of the first declaration
  rcases split_cases hrest with ⟨m', -, hbody⟩ | ⟨-, hsame, -⟩ | ⟨m', hm, -⟩
  · rcases split_cases hbody with ⟨p, -, hafter⟩ | ⟨-, hsame, -⟩ | ⟨w, hw, hinner⟩
    · exact .inl (stop_le_of_mem d.closing_split (by simp [hafter]))
    · exact absurd (hsame ▸ d.isClosing) hclosing
    · rcases split_cases hinner with ⟨w', hw', hclose⟩ | ⟨-, hsame, -⟩ | ⟨z, hz, -⟩
      · -- both braces of the second body are in the first
        have hbalanced := d.balanced
        rw [hw, hw', ← List.cons_append, ← List.append_assoc] at hbalanced
        obtain ⟨z, hz⟩ := hbalanced.closes_inside e.balanced e.isOpening hclose.symm
        have hle := stop_le_of_mem e.closing_split (u := d.closing) (by simp [hz])
        have hlength := start_lt_stop d.closing_mem
        exact .inr (.inl (Nat.lt_of_le_of_lt hle hlength))
      · exact absurd (hsame ▸ d.isClosing) e.isOpening.not_isClosing
      · exact .inr (.inr (by simp [hz]))
  · exact absurd (hsame ▸ d.isOpening) hopening
  · exact absurd hm (hheading m')

/-- A declaration that ends in the heading of another one has begun before it, and the
other one ends later. -/
theorem Declaration.crosses {d e : Declaration (Token.scan source)}
    (hmem : d.closing ∈ e.heading.further) :
    d.heading.keyword.start < e.heading.keyword.start ∧
      e.heading.keyword.start < d.closing.stop ∧ d.closing.stop < e.closing.stop := by
  obtain ⟨x, y, hfurther⟩ := List.append_of_mem hmem
  have hplace : Token.scan source = (e.heading.before ++ e.heading.keyword :: x) ++ d.closing ::
      (y ++ e.opening :: (e.inside ++ e.closing :: e.after)) :=
    e.keyword_split.trans (by simp only [hfurther, List.append_assoc, List.cons_append])
  have hkeyword := start_lt_stop e.keyword_mem
  have hclosing := start_lt_stop d.closing_mem
  have hlast := start_lt_stop e.closing_mem
  have hfirst := stop_le_of_mem e.keyword_split (u := d.closing) (by simp [hmem])
  have hsecond := stop_le_of_mem hplace (u := e.closing) (by simp)
  refine ⟨Nat.lt_of_not_le fun hle => ?_, by omega, by omega⟩
  rcases Nat.lt_or_eq_of_le hle with hlt | heq
  · -- the first keyword would be in the heading of the second
    obtain ⟨m, hrest, hheading⟩ := e.exists_between_keywords d hlt
    rw [hfurther, List.append_assoc, List.cons_append] at hrest
    rcases split_cases hrest with ⟨q, -, hq⟩ | ⟨-, hsame, -⟩ | ⟨q, hq, -⟩
    · have hbefore := stop_le_of_mem d.keyword_split (u := d.closing) (by simp)
      have hbehind := stop_le_of_mem hplace (u := d.heading.keyword) (by simp [hq])
      have hwidth := start_lt_stop d.keyword_mem
      omega
    · exact absurd (hsame ▸ d.isClosing) d.keyword_no_brace.2
    · exact hheading (q ++ d.closing :: y) (by rw [hfurther, hq]; simp)
  · obtain rfl := Declaration.eq_of_start (Variable.pairwise_start source) heq
    omega

end

/-! ### The spans of a source -/

/-- The first of two bodies ends in the heading of the second. -/
def EndsInHeading (tokens : List Token) (a b : Span) : Prop :=
  ∃ d e : Declaration tokens, d.span = a ∧ e.span = b ∧ d.closing ∈ e.heading.further

theorem EndsInHeading.crosses {source : Bytes} {a b : Span}
    (h : EndsInHeading (Token.scan source) a b) :
    a.start < b.start ∧ b.start < a.stop ∧ a.stop < b.stop := by
  obtain ⟨d, e, rfl, rfl, hmem⟩ := h
  have hcrosses := Declaration.crosses hmem
  simp only [Declaration.span]
  omega

section

variable {source : Bytes} {a b : Span} (ha : a ∈ (ofTokens (Token.scan source)).spans)
  (hb : b ∈ (ofTokens (Token.scan source)).spans)

include ha hb

/-- A span that starts first is followed by the other one, or has it inside, or ends in
its heading. -/
theorem nested_of_start_lt (hlt : a.start < b.start) :
    a.stop ≤ b.start ∨ b.Inside a ∨ EndsInHeading (Token.scan source) a b := by
  have hdeclared := declared_ofTokens (apart_scan source).spelled
  obtain ⟨d, rfl⟩ := (hdeclared.spans a).mp ha
  obtain ⟨e, rfl⟩ := (hdeclared.spans b).mp hb
  rcases d.nested e (Int.ofNat_lt.mp hlt) with hle | hinside | hmem
  · exact .inl (Int.ofNat_le.mpr hle)
  · refine .inr (.inl ⟨Int.le_of_lt hlt, Int.ofNat_le.mpr (Nat.le_of_lt hinside), fun heq => ?_⟩)
    exact absurd (congrArg Span.start heq) (Int.ne_of_gt hlt)
  · exact .inr (.inr ⟨d, e, rfl, rfl, hmem⟩)

theorem start_ne_of_ne (hne : a ≠ b) : a.start ≠ b.start := fun heq =>
  hne ((declared_ofTokens (apart_scan source).spelled).span_of_start
    (Variable.pairwise_start source) ha hb heq)

/-- Two spans are one after the other or one inside the other, unless one ends in the
heading of the other. -/
theorem nested_iff (hne : a ≠ b) :
    (a.Beside b ∨ a.Inside b ∨ b.Inside a) ↔
      ¬ (EndsInHeading (Token.scan source) a b ∨ EndsInHeading (Token.scan source) b a) := by
  constructor
  · rintro hnested (hends | hends)
    all_goals
      have hcrosses := hends.crosses
      simp only [Span.Beside, Span.Inside] at hnested
      omega
  · intro hends
    rcases Int.lt_or_gt_of_ne (start_ne_of_ne ha hb hne) with hlt | hlt
    · rcases nested_of_start_lt ha hb hlt with hle | hinside | h
      · exact .inl (.inl hle)
      · exact .inr (.inr hinside)
      · exact absurd (.inl h) hends
    · rcases nested_of_start_lt hb ha hlt with hle | hinside | h
      · exact .inl (.inr hle)
      · exact .inr (.inl hinside)
      · exact absurd (.inr h) hends

/-- Of two spans around an offset, the one that starts later is inside the other one,
unless that ends in its heading. -/
theorem inside_iff {o : Int} (hacontains : a.contains o = true) (hbcontains : b.contains o = true)
    (hle : a.start ≤ b.start) (hne : a ≠ b) :
    b.Inside a ↔ ¬ EndsInHeading (Token.scan source) a b := by
  rw [Span.contains_iff] at hacontains hbcontains
  have hstart := start_ne_of_ne ha hb hne
  have hlt : a.start < b.start := by omega
  constructor
  · intro hinside hends
    have hcrosses := hends.crosses
    have hstop := hinside.2.1
    omega
  · intro hends
    rcases nested_of_start_lt ha hb hlt with hbefore | hinside | h
    · omega
    · exact hinside
    · exact absurd h hends

end

theorem contains_start {source : Bytes} {s : Span}
    (hs : s ∈ (ofTokens (Token.scan source)).spans) : s.contains s.start = true := by
  obtain ⟨d, rfl⟩ := ((declared_ofTokens (apart_scan source).spelled).spans s).mp hs
  have hkeyword := start_lt_stop d.keyword_mem
  have hclosing := start_lt_stop d.closing_mem
  have hle := stop_le_of_mem d.keyword_split (u := d.closing) (by simp)
  rw [Span.contains_iff]
  simp only [Declaration.span]
  omega

/-- The spans of a source form a forest up to the pairs of which one ends in the heading of
the other: these cross. The innermost span around an offset is inside the others around it,
and the span that encloses another one has it inside, up to such pairs as well. -/
theorem spans_nested (source : Bytes) :
    let tokens := Token.scan source
    let scopes := ofTokens tokens
    (∀ a ∈ scopes.spans, ∀ b ∈ scopes.spans, a ≠ b →
        ((a.Beside b ∨ a.Inside b ∨ b.Inside a) ↔
          ¬ (EndsInHeading tokens a b ∨ EndsInHeading tokens b a))) ∧
      (∀ a b, EndsInHeading tokens a b →
        a.start < b.start ∧ b.start < a.stop ∧ a.stop < b.stop) ∧
      (∀ o, (Span.innermost? scopes.spans o = none ↔ ∀ r ∈ scopes.spans, ¬ r.contains o = true) ∧
        ∀ s, Span.innermost? scopes.spans o = some s →
          s ∈ scopes.spans ∧ s.contains o = true ∧
          ∀ r ∈ scopes.spans, r.contains o = true → r ≠ s →
            (s.Inside r ↔ ¬ EndsInHeading tokens r s)) ∧
      ∀ s ∈ scopes.spans, ∀ r, scopes.enclosing? s = some r →
        r ∈ scopes.spans ∧ (s.Inside r ↔ ¬ EndsInHeading tokens r s) := by
  intro tokens scopes
  refine ⟨fun a ha b hb => nested_iff ha hb, fun a b => EndsInHeading.crosses, fun o => ?_,
    fun s hs r hr => ?_⟩
  · rcases Span.innermost?_cases scopes.spans o with
      ⟨hnone, hout⟩ | ⟨f, hf, hsome, hcontains, hlast⟩
    · rw [hnone]
      exact ⟨iff_of_true rfl hout, fun s hs => by cases hs⟩
    · rw [hsome]
      refine ⟨iff_of_false (by simp) fun hout => hout f hf hcontains, ?_⟩
      rintro s ⟨⟩
      exact ⟨hf, hcontains, fun r hr hr' hne =>
        inside_iff hr hf hr' hcontains (hlast r hr hr') hne⟩
  · rcases Span.innermost?_cases (scopes.spans.filter fun x => x ≠ s) s.start with
      ⟨hnone, -⟩ | ⟨f, hf, hsome, hcontains, -⟩
    · rw [enclosing?, hnone] at hr
      cases hr
    · rw [enclosing?, hsome] at hr
      obtain rfl := Option.some.inj hr
      obtain ⟨hmem, hne⟩ := List.mem_filter.mp hf
      have hle := (Span.contains_iff.mp hcontains).1
      exact ⟨hmem, inside_iff hmem hs hcontains (contains_start hs) hle (of_decide_eq_true hne)⟩

/-- A class with a method and a function whose heading goes on behind the class. -/
theorem spans_nested_class :
    let tokens := Token.scan (Utf8.encode "class A { function f() { } function g } { }")
    let scopes := ofTokens tokens
    let outer : Span := ⟨0, 39⟩
    let method : Span := ⟨10, 26⟩
    let crossing : Span := ⟨27, 43⟩
    scopes.spans = [method, outer, crossing] ∧
      scopes.enclosing? method = some outer ∧ ¬ EndsInHeading tokens outer method ∧
      scopes.enclosing? crossing = some outer ∧ EndsInHeading tokens outer crossing := by
  intro tokens scopes outer method crossing
  have hspans : scopes.spans = [method, outer, crossing] := by decide +kernel
  have hmethod : scopes.enclosing? method = some outer := by decide +kernel
  have hcrossing : scopes.enclosing? crossing = some outer := by decide +kernel
  obtain ⟨-, -, -, henclosing⟩ :=
    spans_nested (Utf8.encode "class A { function f() { } function g } { }")
  have hinside := (henclosing method (by rw [hspans]; simp) outer hmethod).2
  have hcrosses := (henclosing crossing (by rw [hspans]; simp) outer hcrossing).2
  refine ⟨hspans, hmethod, hinside.mp (by decide), hcrossing, ?_⟩
  by_contra hends
  exact absurd (hcrosses.mpr hends) (by decide)

/-- Two spans that cross, of which one is taken for the scope around the other. -/
theorem spans_cross :
    let scopes := ofTokens (Token.scan (Utf8.encode "class A { function f } { }"))
    ∃ a ∈ scopes.spans, ∃ b ∈ scopes.spans, a ≠ b ∧ ¬ (a.Beside b ∨ a.Inside b ∨ b.Inside a) ∧
      scopes.enclosing? b = some a ∧ ¬ b.Inside a ∧
      Span.innermost? scopes.spans 10 = some b ∧ a.contains 10 = true := by
  decide +kernel

end Scopes

end RenameServer
