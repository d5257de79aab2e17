import RenameServer.Source.Scope

/-!
Braces paired by nesting. Tokens are balanced when each opening brace among them
has its closing brace and the other way round. An opening brace is closed by the
brace behind the balanced tokens that follow it, and two pairs of braces are one
inside the other or one after the other. How deep the braces are after some of
the tokens decides all of this.
-/
namespace RenameServer.Scopes

open Lexeme

def IsOpening (t : Token) : Prop := t.value = [openBrace]

def IsClosing (t : Token) : Prop := t.value = [closeBrace]

instance (t : Token) : Decidable (IsOpening t) := inferInstanceAs (Decidable (t.value = _))

instance (t : Token) : Decidable (IsClosing t) := inferInstanceAs (Decidable (t.value = _))

theorem IsOpening.not_isClosing {t : Token} (h : IsOpening t) : ¬ IsClosing t := by
  intro hclosing
  have hbraces : [openBrace] = [closeBrace] := h.symm.trans hclosing
  exact absurd hbraces (by decide)

/-- Tokens in which all braces are paired. -/
inductive Balanced : List Token → Prop where
  | nil : Balanced []
  | other {t : Token} {rest : List Token} (hopening : ¬ IsOpening t) (hclosing : ¬ IsClosing t)
    (h : Balanced rest) : Balanced (t :: rest)
  | pair {o c : Token} {inside rest : List Token} (ho : IsOpening o) (hinside : Balanced inside)
    (hc : IsClosing c) (h : Balanced rest) : Balanced (o :: (inside ++ c :: rest))

theorem Balanced.append {left right : List Token} (hleft : Balanced left)
    (hright : Balanced right) : Balanced (left ++ right) := by
  induction hleft with
  | nil => exact hright
  | other hopening hclosing _ ih => exact .other hopening hclosing ih
  | pair ho hinside hc _ _ ih =>
    rw [List.cons_append, List.append_assoc, List.cons_append]
    exact .pair ho hinside hc ih

/-! ### Depth -/

/-- The opening braces less the closing ones. -/
def depth : List Token → Int
  | [] => 0
  | t :: rest => (if IsOpening t then 1 else if IsClosing t then -1 else 0) + depth rest

@[simp] theorem depth_nil : depth [] = 0 := rfl

theorem depth_opening {o : Token} (ho : IsOpening o) (rest : List Token) :
    depth (o :: rest) = 1 + depth rest := by
  rw [depth, if_pos ho]

theorem depth_closing {c : Token} (hc : IsClosing c) (rest : List Token) :
    depth (c :: rest) = -1 + depth rest := by
  rw [depth, if_neg fun ho => ho.not_isClosing hc, if_pos hc]

theorem depth_other {t : Token} (hopening : ¬ IsOpening t) (hclosing : ¬ IsClosing t)
    (rest : List Token) : depth (t :: rest) = depth rest := by
  rw [depth, if_neg hopening, if_neg hclosing, Int.zero_add]

@[simp] theorem depth_append (left right : List Token) :
    depth (left ++ right) = depth left + depth right := by
  induction left with
  | nil => simp
  | cons t rest ih => rw [List.cons_append, depth, depth, ih, Int.add_assoc]

theorem Balanced.depth_eq {tokens : List Token} (h : Balanced tokens) : depth tokens = 0 := by
  induction h with
  | nil => rfl
  | other hopening hclosing _ ih => rw [depth_other hopening hclosing, ih]
  | pair ho _ hc _ ihinside ih =>
    rw [depth_opening ho, depth_append, depth_closing hc, ihinside, ih]
    rfl

/-- Within balanced tokens, no brace is closed that has not been opened. -/
theorem Balanced.depth_prefix {tokens : List Token} (h : Balanced tokens) {p q : List Token}
    (hsplit : tokens = p ++ q) : 0 ≤ depth p := by
  induction h generalizing p q with
  | nil =>
    obtain ⟨rfl, -⟩ := List.append_eq_nil_iff.mp hsplit.symm
    exact Int.le_refl 0
  | other hopening hclosing _ ih =>
    cases p with
    | nil => exact Int.le_refl 0
    | cons t p =>
      obtain ⟨rfl, hrest⟩ := List.cons.inj hsplit
      rw [depth_other hopening hclosing]
      exact ih hrest
  | pair ho hinside hc _ ihinside ih =>
    cases p with
    | nil => exact Int.le_refl 0
    | cons t p =>
      obtain ⟨rfl, hrest⟩ := List.cons.inj hsplit
      rw [depth_opening ho]
      rcases List.append_eq_append_iff.mp hrest with ⟨m, rfl, hm⟩ | ⟨m, hm, -⟩
      · -- the prefix goes on behind the first pair
        rw [depth_append, hinside.depth_eq]
        cases m with
        | nil => simp
        | cons t m =>
          obtain ⟨rfl, hmore⟩ := List.cons.inj hm
          rw [depth_closing hc]
          have := ih hmore
          omega
      · have := ihinside hm
        omega

/-! ### Pairs -/

/-- Of two tokens of a list, one is before the other or they are in the same place. -/
theorem split_cases {l l' r r' : List Token} {t u : Token} (h : l ++ t :: r = l' ++ u :: r') :
    (∃ m, l' = l ++ t :: m ∧ r = m ++ u :: r') ∨ (l = l' ∧ t = u ∧ r = r') ∨
      ∃ m, l = l' ++ u :: m ∧ r' = m ++ t :: r := by
  rcases List.append_eq_append_iff.mp h with ⟨m, hl, hr⟩ | ⟨m, hl, hr⟩
  · cases m with
    | nil =>
      obtain ⟨htoken, hrest⟩ := List.cons.inj hr
      exact .inr (.inl ⟨by rw [hl, List.append_nil], htoken, hrest⟩)
    | cons v m =>
      obtain ⟨rfl, hrest⟩ := List.cons.inj hr
      exact .inl ⟨m, hl, hrest⟩
  · cases m with
    | nil =>
      obtain ⟨htoken, hrest⟩ := List.cons.inj hr
      exact .inr (.inl ⟨by rw [hl, List.append_nil], htoken.symm, hrest.symm⟩)
    | cons v m =>
      obtain ⟨rfl, hrest⟩ := List.cons.inj hr
      exact .inr (.inr ⟨m, hl, hrest⟩)

section

variable {o o' c c' : Token} {outer outer' inside inside' after after' : List Token}

/-- An opening brace in the middle of balanced tokens does not stay open. -/
theorem Balanced.ne_opening (hinside : Balanced inside) (hinside' : Balanced inside')
    (ho : IsOpening o) (p : List Token) : inside ≠ p ++ o :: inside' := by
  intro heq
  have hprefix := hinside.depth_prefix heq
  have hwhole := hinside.depth_eq
  rw [heq, depth_append, depth_opening ho, hinside'.depth_eq] at hwhole
  omega

/-- Only one opening brace has nothing but balanced tokens behind it. -/
theorem Balanced.opening_unique (hinside : Balanced inside) (hinside' : Balanced inside')
    (ho : IsOpening o) (ho' : IsOpening o') (h : outer ++ o :: inside = outer' ++ o' :: inside') :
    outer = outer' ∧ o = o' ∧ inside = inside' := by
  rcases split_cases h with ⟨m, -, hm⟩ | hsame | ⟨m, -, hm⟩
  · exact absurd hm (hinside.ne_opening hinside' ho' m)
  · exact hsame
  · exact absurd hm (hinside'.ne_opening hinside ho m)

/-- Balanced tokens do not go on behind a brace that closes one before them. -/
theorem Balanced.ne_closing (hinside : Balanced inside) (hinside' : Balanced inside')
    (hc : IsClosing c) (q : List Token) : inside' ≠ inside ++ c :: q := by
  intro heq
  have hprefix := hinside'.depth_prefix (p := inside ++ [c]) (q := q) (by simpa using heq)
  rw [depth_append, depth_closing hc, hinside.depth_eq, depth_nil] at hprefix
  omega

/-- The brace that closes another one is determined by the tokens behind that one. -/
theorem Balanced.closing_unique (hinside : Balanced inside) (hinside' : Balanced inside')
    (hc : IsClosing c) (hc' : IsClosing c') (h : inside ++ c :: after = inside' ++ c' :: after') :
    inside = inside' ∧ c = c' ∧ after = after' := by
  rcases split_cases h with ⟨m, hm, -⟩ | hsame | ⟨m, hm, -⟩
  · exact absurd hm (hinside.ne_closing hinside' hc m)
  · exact hsame
  · exact absurd hm (hinside'.ne_closing hinside hc' m)

/-- A brace that is opened between two braces of a pair is closed between them. -/
theorem Balanced.closes_inside {p w : List Token} (h : Balanced (p ++ o :: w))
    (hinside : Balanced inside) (ho : IsOpening o)
    (heq : w ++ c :: after = inside ++ c' :: after') : ∃ z, after' = z ++ c :: after := by
  have hprefix := h.depth_prefix (p := p) rfl
  have hwhole := h.depth_eq
  rw [depth_append, depth_opening ho] at hwhole
  rcases split_cases heq with ⟨m, hm, -⟩ | ⟨hm, -⟩ | ⟨m, -, hm⟩
  · -- all of `w` would be inside the second pair, and the depth after it at least zero
    have hdepth := hinside.depth_prefix hm
    omega
  · rw [hm, hinside.depth_eq] at hwhole
    omega
  · exact ⟨m, hm⟩

end

/-- Every opening brace is closed later on. Closing braces need not be paired. -/
def AllClosed (tokens : List Token) : Prop :=
  ∀ l o r, tokens = l ++ o :: r → IsOpening o → ∃ p q, r = p ++ q ∧ depth p < 0

theorem allClosed_nil : AllClosed [] := by
  intro l o r h
  simp at h

theorem Balanced.allClosed {tokens : List Token} (h : Balanced tokens) : AllClosed tokens := by
  intro l o r hsplit ho
  have hprefix := h.depth_prefix hsplit
  have hwhole := h.depth_eq
  rw [hsplit, depth_append, depth_opening ho] at hwhole
  exact ⟨r, [], (List.append_nil r).symm, by omega⟩

theorem allClosed_singleton {t : Token} (h : ¬ IsOpening t) : AllClosed [t] := by
  intro l o r hsplit ho
  cases l with
  | nil =>
    obtain ⟨rfl, -⟩ := List.cons.inj hsplit
    exact absurd ho h
  | cons u l => simp at hsplit

theorem AllClosed.append {left right : List Token} (hleft : AllClosed left)
    (hright : AllClosed right) : AllClosed (left ++ right) := by
  intro l o r hsplit ho
  rcases List.append_eq_append_iff.mp hsplit with ⟨m, -, hm⟩ | ⟨m, hm, hrest⟩
  · exact hright m o r hm ho
  · cases m with
    | nil => exact hright [] o r hrest.symm ho
    | cons t m =>
      obtain ⟨rfl, rfl⟩ := List.cons.inj hrest
      obtain ⟨p, q, rfl, hdepth⟩ := hleft l _ m hm ho
      exact ⟨p, q ++ right, List.append_assoc .., hdepth⟩

/-- An opening brace with nothing but balanced tokens behind it is not closed. -/
theorem AllClosed.not_opening {outer inside : List Token} {o : Token}
    (h : AllClosed (outer ++ o :: inside)) (ho : IsOpening o) : ¬ Balanced inside := by
  intro hinside
  obtain ⟨p, q, hsplit, hdepth⟩ := h outer o inside rfl ho
  have := hinside.depth_prefix hsplit
  omega

end RenameServer.Scopes
