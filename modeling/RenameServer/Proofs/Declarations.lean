import Mathlib.Data.List.Induction
import RenameServer.Proofs.Braces

/-!
The bodies that a source declares, said without a scan. A declaration begins with
a keyword that is no member name. Its heading ends at the next opening brace,
semicolon or keyword, and it has a body if that is a brace which is closed. The
variables behind the first `use` in the heading of a function are captured. A
keyword has one heading and at most one body.
-/
namespace RenameServer.Scopes

open Utf8 (Bytes)
open Lexeme

/-! ### Words -/

/-- Right behind a member mark. -/
def AfterMark (before : List Token) : Prop :=
  ∃ m, before.getLast? = some m ∧ m.value ∈ memberMarks

/-- One of some words, in any case of its letters, that is no member name. -/
structure IsWord (words : List Bytes) (before : List Token) (t : Token) : Prop where
  kind : t.kind = .identifier
  word : Token.lowerBytes t.value ∈ words
  free : ¬ AfterMark before

/-- What ends a heading: an opening brace, a semicolon or the next keyword. -/
def EndsHeading (before : List Token) (t : Token) : Prop :=
  IsOpening t ∨ t.value = [semicolon] ∨ IsWord scopeWords before t

/-- None of some tokens is of a kind that depends on the tokens before. -/
def NoneOf (p : List Token → Token → Prop) (before tokens : List Token) : Prop :=
  ∀ l t r, tokens = l ++ t :: r → ¬ p (before ++ l) t

section

variable {p : List Token → Token → Prop} {before tokens : List Token} {t : Token}

theorem noneOf_nil (p : List Token → Token → Prop) (before : List Token) : NoneOf p before [] := by
  intro l t r h
  simp at h

theorem NoneOf.of_append {more : List Token} (h : NoneOf p before (tokens ++ more)) :
    NoneOf p before tokens := by
  intro l u r hsplit
  exact h l u (r ++ more) (by rw [hsplit, List.append_assoc, List.cons_append])

theorem noneOf_concat :
    NoneOf p before (tokens ++ [t]) ↔ NoneOf p before tokens ∧ ¬ p (before ++ tokens) t := by
  constructor
  · intro h
    exact ⟨h.of_append, h tokens t [] rfl⟩
  · rintro ⟨hnone, hlast⟩ l u r hsplit
    rcases List.eq_nil_or_concat r with rfl | ⟨r, v, rfl⟩
    · obtain ⟨rfl, hu⟩ := List.append_inj' hsplit rfl
      obtain ⟨rfl, -⟩ := List.cons.inj hu
      exact hlast
    · rw [List.concat_eq_append, ← List.cons_append, ← List.append_assoc] at hsplit
      exact hnone l u r (List.append_inj' hsplit rfl).1

/-- Some tokens have none of a kind, or a first one. -/
theorem noneOf_or_first (p : List Token → Token → Prop) (before tokens : List Token) :
    NoneOf p before tokens ∨
      ∃ l t r, tokens = l ++ t :: r ∧ NoneOf p before l ∧ p (before ++ l) t := by
  induction tokens using List.reverseRecOn with
  | nil => exact .inl (noneOf_nil p before)
  | append_singleton tokens t ih =>
    rcases ih with hnone | ⟨l, u, r, rfl, hnone, hu⟩
    · by_cases ht : p (before ++ tokens) t
      · exact .inr ⟨tokens, t, [], rfl, hnone, ht⟩
      · exact .inl (noneOf_concat.mpr ⟨hnone, ht⟩)
    · exact .inr ⟨l, u, r ++ [t], by simp, hnone, hu⟩

end

/-! ### Declarations -/

/-- A heading that has not ended by the end of the tokens. -/
@[ext] structure Heading (tokens : List Token) where
  before : List Token
  keyword : Token
  further : List Token
  tokens_eq : tokens = before ++ keyword :: further
  isKeyword : IsWord scopeWords before keyword
  going : NoneOf EndsHeading (before ++ [keyword]) further

namespace Heading

variable {tokens : List Token}

def IsFunction (h : Heading tokens) : Prop :=
  Token.lowerBytes h.keyword.value = functionWord

/-- The tokens behind the first `use`. -/
def Clause (h : Heading tokens) (clause : List Token) : Prop :=
  ∃ l u, h.further = l ++ u :: clause ∧
    NoneOf (IsWord [useWord]) (h.before ++ [h.keyword]) l ∧
    IsWord [useWord] (h.before ++ [h.keyword] ++ l) u

/-- A variable in the `use` clause of a function. -/
def Captures (h : Heading tokens) (v : Token) : Prop :=
  h.IsFunction ∧ ∃ clause, h.Clause clause ∧ v ∈ clause ∧ v.kind = .variable

end Heading

/-- A declaration with its body: the heading ends with an opening brace, which is closed. -/
structure Declaration (tokens : List Token) where
  outer : List Token
  heading : Heading outer
  opening : Token
  inside : List Token
  closing : Token
  after : List Token
  tokens_eq : tokens = outer ++ opening :: (inside ++ closing :: after)
  isOpening : IsOpening opening
  balanced : Balanced inside
  isClosing : IsClosing closing

/-- From the keyword through the closing brace. -/
def Declaration.span {tokens : List Token} (d : Declaration tokens) : Span :=
  ⟨d.heading.keyword.start, d.closing.stop⟩

/-! ### Headings, token by token -/

section

variable {seen : List Token} {t : Token}

theorem Heading.seen_eq (h : Heading seen) : h.before ++ [h.keyword] ++ h.further = seen := by
  rw [List.append_assoc, List.singleton_append]
  exact h.tokens_eq.symm

/-- A heading goes on with a token that does not end it. -/
def Heading.concat (h : Heading seen) (ht : ¬ EndsHeading seen t) : Heading (seen ++ [t]) where
  before := h.before
  keyword := h.keyword
  further := h.further ++ [t]
  tokens_eq := by
    rw [← List.cons_append, ← List.append_assoc]
    exact congrArg (· ++ [t]) h.tokens_eq
  isKeyword := h.isKeyword
  going := noneOf_concat.mpr ⟨h.going, by rwa [h.seen_eq]⟩

/-- The heading of a keyword by itself. -/
def Heading.ofKeyword (ht : IsWord scopeWords seen t) : Heading (seen ++ [t]) where
  before := seen
  keyword := t
  further := []
  tokens_eq := rfl
  isKeyword := ht
  going := noneOf_nil _ _

/-- A heading starts with the last token or goes on with it. -/
theorem Heading.concat_cases (h : Heading (seen ++ [t])) :
    (∃ ht : IsWord scopeWords seen t, h = .ofKeyword ht) ∨
      ∃ (ht : ¬ EndsHeading seen t) (h' : Heading seen), h = h'.concat ht := by
  obtain ⟨before, keyword, further, heq, hkeyword, hgoing⟩ := h
  rcases List.eq_nil_or_concat further with rfl | ⟨further, u, rfl⟩
  · obtain ⟨rfl, hlast⟩ := List.append_inj' heq rfl
    obtain ⟨rfl, -⟩ := List.cons.inj hlast
    exact .inl ⟨hkeyword, rfl⟩
  · rw [List.concat_eq_append] at heq hgoing
    rw [← List.cons_append, ← List.append_assoc] at heq
    obtain ⟨rfl, hlast⟩ := List.append_inj' heq rfl
    obtain ⟨rfl, -⟩ := List.cons.inj hlast
    obtain ⟨hgoing', hlast⟩ := noneOf_concat.mp hgoing
    rw [List.append_assoc, List.singleton_append] at hlast
    refine .inr ⟨hlast, ⟨before, keyword, further, rfl, hkeyword, hgoing'⟩, ?_⟩
    ext1
    · rfl
    · rfl
    · exact List.concat_eq_append

theorem Heading.exists_concat_iff (ht : ¬ EndsHeading seen t) (p : Heading (seen ++ [t]) → Prop) :
    (∃ h, p h) ↔ ∃ h : Heading seen, p (h.concat ht) := by
  constructor
  · rintro ⟨h, hp⟩
    rcases h.concat_cases with ⟨hword, -⟩ | ⟨ht', h', rfl⟩
    · exact absurd (.inr (.inr hword)) ht
    · exact ⟨h', hp⟩
  · rintro ⟨h, hp⟩
    exact ⟨_, hp⟩

theorem Heading.exists_ofKeyword_iff (ht : IsWord scopeWords seen t)
    (p : Heading (seen ++ [t]) → Prop) : (∃ h, p h) ↔ p (.ofKeyword ht) := by
  constructor
  · rintro ⟨h, hp⟩
    rcases h.concat_cases with ⟨_, heq⟩ | ⟨hnot, -⟩
    · exact heq ▸ hp
    · exact absurd (.inr (.inr ht)) hnot
  · intro hp
    exact ⟨_, hp⟩

theorem Heading.clause_concat_iff (h : Heading seen) (ht : ¬ EndsHeading seen t)
    {clause : List Token} :
    (h.concat ht).Clause clause ↔ (∃ c, h.Clause c ∧ clause = c ++ [t]) ∨
      (NoneOf (IsWord [useWord]) (h.before ++ [h.keyword]) h.further ∧
        IsWord [useWord] seen t ∧ clause = []) := by
  constructor
  · rintro ⟨l, u, hfurther, hnone, hu⟩
    have hfurther : h.further ++ [t] = l ++ u :: clause := hfurther
    rcases List.eq_nil_or_concat clause with rfl | ⟨clause, v, rfl⟩
    · obtain ⟨hl, hlast⟩ := List.append_inj' hfurther rfl
      obtain ⟨rfl, -⟩ := List.cons.inj hlast
      subst hl
      have hword : IsWord [useWord] (h.before ++ [h.keyword] ++ h.further) t := hu
      rw [h.seen_eq] at hword
      exact .inr ⟨hnone, hword, rfl⟩
    · rw [List.concat_eq_append] at hfurther ⊢
      rw [← List.cons_append, ← List.append_assoc] at hfurther
      obtain ⟨hl, hlast⟩ := List.append_inj' hfurther rfl
      obtain ⟨rfl, -⟩ := List.cons.inj hlast
      exact .inl ⟨clause, ⟨l, u, hl, hnone, hu⟩, rfl⟩
  · rintro (⟨c, ⟨l, u, hfurther, hnone, hu⟩, rfl⟩ | ⟨hnone, hword, rfl⟩)
    · refine ⟨l, u, ?_, hnone, hu⟩
      rw [← List.cons_append, ← List.append_assoc, ← hfurther]
      rfl
    · refine ⟨h.further, t, rfl, hnone, ?_⟩
      have hword : IsWord [useWord] (h.before ++ [h.keyword] ++ h.further) t := by
        rwa [h.seen_eq]
      exact hword

/-- A heading has a `use` clause as soon as it has had the word. -/
theorem Heading.exists_clause_concat_iff (h : Heading seen) (ht : ¬ EndsHeading seen t) :
    (∃ clause, (h.concat ht).Clause clause) ↔
      (∃ clause, h.Clause clause) ∨ IsWord [useWord] seen t := by
  simp only [h.clause_concat_iff ht]
  constructor
  · rintro ⟨clause, ⟨c, hc, -⟩ | ⟨-, hword, -⟩⟩
    · exact .inl ⟨c, hc⟩
    · exact .inr hword
  · rintro (⟨c, hc⟩ | hword)
    · exact ⟨c ++ [t], .inl ⟨c, hc, rfl⟩⟩
    · rcases noneOf_or_first (IsWord [useWord]) (h.before ++ [h.keyword]) h.further with
        hnone | ⟨l, u, c, hfurther, hnone, hu⟩
      · exact ⟨[], .inr ⟨hnone, hword, rfl⟩⟩
      · exact ⟨c ++ [t], .inl ⟨c, ⟨l, u, hfurther, hnone, hu⟩, rfl⟩⟩

theorem Heading.captures_concat_iff (h : Heading seen) (ht : ¬ EndsHeading seen t) {v : Token} :
    (h.concat ht).Captures v ↔ h.Captures v ∨
      (h.IsFunction ∧ ∃ clause, h.Clause clause) ∧ v = t ∧ t.kind = .variable := by
  have hfunction : (h.concat ht).IsFunction ↔ h.IsFunction := Iff.rfl
  simp only [Captures, h.clause_concat_iff ht, hfunction]
  constructor
  · rintro ⟨hfun, clause, ⟨c, hc, rfl⟩ | ⟨-, -, rfl⟩, hv, hkind⟩
    · rcases List.mem_append.mp hv with hv | hv
      · exact .inl ⟨hfun, c, hc, hv, hkind⟩
      · obtain rfl := List.mem_singleton.mp hv
        exact .inr ⟨⟨hfun, c, hc⟩, rfl, hkind⟩
    · cases hv
  · rintro (⟨hfun, c, hc, hv, hkind⟩ | ⟨⟨hfun, c, hc⟩, rfl, hkind⟩)
    · exact ⟨hfun, c ++ [t], .inl ⟨c, hc, rfl⟩, List.mem_append_left _ hv, hkind⟩
    · exact ⟨hfun, c ++ [v], .inl ⟨c, hc, rfl⟩, by simp, hkind⟩

end

/-! ### Declarations, token by token -/

section

variable {seen : List Token} {t : Token}

/-- A declaration stays one when more tokens follow. -/
def Declaration.concat (d : Declaration seen) (t : Token) : Declaration (seen ++ [t]) where
  outer := d.outer
  heading := d.heading
  opening := d.opening
  inside := d.inside
  closing := d.closing
  after := d.after ++ [t]
  tokens_eq := (congrArg (· ++ [t]) d.tokens_eq).trans (by simp)
  isOpening := d.isOpening
  balanced := d.balanced
  isClosing := d.isClosing

/-- The declaration that a closing brace completes. -/
def Declaration.close {outer inside : List Token} {o : Token} (hseen : seen = outer ++ o :: inside)
    (heading : Heading outer) (ho : IsOpening o) (hinside : Balanced inside) (ht : IsClosing t) :
    Declaration (seen ++ [t]) where
  outer := outer
  heading := heading
  opening := o
  inside := inside
  closing := t
  after := []
  tokens_eq := by rw [hseen, List.append_assoc, List.cons_append]
  isOpening := ho
  balanced := hinside
  isClosing := ht

/-- A declaration has ended before the last token or is completed by it. -/
theorem Declaration.concat_cases (d : Declaration (seen ++ [t])) :
    (∃ d' : Declaration seen, d = d'.concat t) ∨
      ∃ (outer inside : List Token) (o : Token) (hseen : seen = outer ++ o :: inside)
        (heading : Heading outer) (ho : IsOpening o) (hinside : Balanced inside)
        (ht : IsClosing t), d = .close hseen heading ho hinside ht := by
  obtain ⟨outer, heading, opening, inside, closing, after, heq, ho, hinside, hc⟩ := d
  rcases List.eq_nil_or_concat after with rfl | ⟨after, u, rfl⟩
  · have hsplit : seen ++ [t] = (outer ++ opening :: inside) ++ [closing] := by
      rw [heq, List.append_assoc, List.cons_append]
    obtain ⟨hseen, hlast⟩ := List.append_inj' hsplit rfl
    obtain ⟨rfl, -⟩ := List.cons.inj hlast
    exact .inr ⟨outer, inside, opening, hseen, heading, ho, hinside, hc, rfl⟩
  · have hsplit : seen ++ [t] = (outer ++ opening :: (inside ++ closing :: after)) ++ [u] := by
      rw [heq]
      simp
    obtain ⟨hseen, hlast⟩ := List.append_inj' hsplit rfl
    obtain ⟨rfl, -⟩ := List.cons.inj hlast
    refine .inl ⟨⟨outer, heading, opening, inside, closing, after, hseen, ho, hinside, hc⟩, ?_⟩
    simp [concat]

end

/-! ### Uniqueness -/

/-- The first token of a kind is determined by the tokens. -/
theorem NoneOf.first_unique {p : List Token → Token → Prop} {before l l' r r' : List Token}
    {t t' : Token} (hnone : NoneOf p before l) (hnone' : NoneOf p before l')
    (ht : p (before ++ l) t) (ht' : p (before ++ l') t') (h : l ++ t :: r = l' ++ t' :: r') :
    l = l' ∧ t = t' ∧ r = r' := by
  rcases split_cases h with ⟨m, hm, -⟩ | hsame | ⟨m, hm, -⟩
  · exact absurd ht (hnone' l t m hm)
  · exact hsame
  · exact absurd ht' (hnone l' t' m hm)

/-- No two headings end with the same token. -/
theorem heading_unique {tokens : List Token} (h h' : Heading tokens) : h = h' := by
  induction tokens using List.reverseRecOn with
  | nil => simpa using h.tokens_eq
  | append_singleton seen t ih =>
    rcases h.concat_cases with ⟨ht, rfl⟩ | ⟨ht, g, rfl⟩
    · rcases h'.concat_cases with ⟨_, rfl⟩ | ⟨hnot, -⟩
      · rfl
      · exact absurd (.inr (.inr ht)) hnot
    · rcases h'.concat_cases with ⟨hword, -⟩ | ⟨_, g', rfl⟩
      · exact absurd (.inr (.inr hword)) ht
      · rw [ih g g']

/-- At a captured variable, the heading has begun. -/
theorem Heading.Captures.exists_heading {outer : List Token} {h : Heading outer} {v : Token}
    (hv : h.Captures v) :
    ∃ seen r, outer = seen ++ v :: r ∧ ∃ g : Heading seen, g.keyword = h.keyword := by
  obtain ⟨-, clause, ⟨l, u, hfurther, -, -⟩, hmem, -⟩ := hv
  obtain ⟨x, y, rfl⟩ := List.append_of_mem hmem
  rw [← List.cons_append, ← List.append_assoc] at hfurther
  refine ⟨h.before ++ h.keyword :: (l ++ u :: x), y, ?_, ?_⟩
  · calc outer = h.before ++ h.keyword :: h.further := h.tokens_eq
      _ = h.before ++ h.keyword :: (l ++ u :: x) ++ v :: y := by
        rw [hfurther, ← List.cons_append, ← List.append_assoc]
  · have hgoing := h.going
    rw [hfurther] at hgoing
    exact ⟨⟨_, _, _, rfl, h.isKeyword, hgoing.of_append⟩, rfl⟩

section

variable {tokens : List Token}

/-- Where each token starts behind the one before, its start tells its place. -/
theorem place_of_start (hstarts : tokens.Pairwise fun t u => t.start < u.start)
    {l l' r r' : List Token} {t t' : Token} (h : tokens = l ++ t :: r)
    (h' : tokens = l' ++ t' :: r') (heq : t.start = t'.start) : l = l' ∧ t = t' ∧ r = r' := by
  have hlt : ∀ {l m r : List Token} {t u : Token}, tokens = l ++ t :: (m ++ u :: r) →
      t.start < u.start := by
    intro l m r t u hsplit
    rw [hsplit] at hstarts
    exact (List.pairwise_cons.mp (List.pairwise_append.mp hstarts).2.1).1 u (by simp)
  rcases split_cases (h.symm.trans h') with ⟨m, -, hm⟩ | hsame | ⟨m, -, hm⟩
  · exact absurd heq (Nat.ne_of_lt (hlt (hm ▸ h)))
  · exact hsame
  · exact absurd heq.symm (Nat.ne_of_lt (hlt (hm ▸ h')))

theorem Declaration.keyword_split (d : Declaration tokens) :
    tokens = d.heading.before ++ d.heading.keyword ::
      (d.heading.further ++ d.opening :: (d.inside ++ d.closing :: d.after)) := by
  calc tokens = d.outer ++ d.opening :: (d.inside ++ d.closing :: d.after) := d.tokens_eq
    _ = (d.heading.before ++ d.heading.keyword :: d.heading.further) ++
          d.opening :: (d.inside ++ d.closing :: d.after) := congrArg (· ++ _) d.heading.tokens_eq
    _ = _ := by rw [List.append_assoc, List.cons_append]

theorem Declaration.closing_split (d : Declaration tokens) :
    tokens = (d.outer ++ d.opening :: d.inside) ++ d.closing :: d.after := by
  rw [List.append_assoc, List.cons_append]
  exact d.tokens_eq

theorem Declaration.keyword_mem (d : Declaration tokens) : d.heading.keyword ∈ tokens :=
  (congrArg (d.heading.keyword ∈ ·) d.keyword_split).mpr (by simp)

theorem Declaration.closing_mem (d : Declaration tokens) : d.closing ∈ tokens :=
  (congrArg (d.closing ∈ ·) d.closing_split).mpr (by simp)

/-- A keyword has at most one body. -/
theorem Declaration.eq_of_start (hstarts : tokens.Pairwise fun t u => t.start < u.start)
    {d d' : Declaration tokens} (h : d.heading.keyword.start = d'.heading.keyword.start) :
    d = d' := by
  obtain ⟨hbefore, hkeyword, hrest⟩ := place_of_start hstarts d.keyword_split d'.keyword_split h
  obtain ⟨_, ⟨before, k, further, rfl, _, hgoing⟩, o, inside, c, after, _, ho, hinside, hc⟩ := d
  obtain ⟨_, ⟨before', k', further', rfl, _, hgoing'⟩, o', inside', c', after', _, ho', hinside',
    hc'⟩ := d'
  obtain rfl : before = before' := hbefore
  obtain rfl : k = k' := hkeyword
  -- the heading ends with the first token that can end it
  obtain ⟨rfl, rfl, hbody⟩ := hgoing.first_unique hgoing' (.inl ho) (.inl ho') hrest
  obtain ⟨rfl, rfl, rfl⟩ := hinside.closing_unique hinside' hc hc' hbody
  rfl

end

end RenameServer.Scopes
