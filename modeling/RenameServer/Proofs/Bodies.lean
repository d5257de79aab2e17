import RenameServer.Proofs.Components
import RenameServer.Proofs.Declarations

/-!
The scan for scopes finds the declared bodies. After each token it has the heading
that has not ended and the opening braces that are not closed, each with the
heading before it. A closing brace takes the last open one and completes its
declaration. So the spans are those of the declarations, in the order in which
they end, and the captures those of their `use` clauses.
-/
namespace RenameServer.Scopes

open Utf8 (Bytes)
open Lexeme Respelling

/-- What the scan has noted is the heading that has not ended. -/
structure Pending.Notes (seen : List Token) (p : Pending) : Prop where
  keyword : ∀ n, p.keyword = some n ↔ ∃ h : Heading seen, h.keyword.start = n
  function : p.function = true ↔ ∃ h : Heading seen, h.IsFunction
  inUse : p.inUse = true ↔ ∃ h : Heading seen, h.IsFunction ∧ ∃ clause, h.Clause clause
  used : ∀ v, v ∈ p.used ↔ ∃ h : Heading seen, h.Captures v

section

variable {seen : List Token} {t : Token} {p : Pending}

theorem Pending.notes_none (h : IsEmpty (Heading seen)) : Pending.none.Notes seen where
  keyword n := by simp [Pending.none]
  function := by simp [Pending.none]
  inUse := by simp [Pending.none]
  used v := by simp [Pending.none]

theorem isEmpty_heading_of_mark (ht : IsOpening t ∨ t.value = [semicolon])
    (hword : ¬ IsWord scopeWords seen t) : IsEmpty (Heading (seen ++ [t])) where
  false h := by
    rcases h.concat_cases with ⟨hkeyword, -⟩ | ⟨hnot, -⟩
    · exact hword hkeyword
    · exact hnot (ht.imp id .inl)

theorem Pending.notes_keyword (ht : IsWord scopeWords seen t) :
    Pending.Notes (seen ++ [t])
      ⟨some t.start, Token.lowerBytes t.value = functionWord, false, []⟩ := by
  have hclause : ∀ clause, ¬ (Heading.ofKeyword ht).Clause clause := by
    rintro clause ⟨l, u, hfurther, -⟩
    have hnil : [] = l ++ u :: clause := hfurther
    simp at hnil
  refine ⟨fun n => ?_, ?_, ?_, fun v => ?_⟩
  · rw [Heading.exists_ofKeyword_iff ht, Option.some_inj]
    rfl
  · rw [Heading.exists_ofKeyword_iff ht, decide_eq_true_iff]
    rfl
  · rw [Heading.exists_ofKeyword_iff ht]
    simp [hclause]
  · rw [Heading.exists_ofKeyword_iff ht]
    simp [Heading.Captures, hclause]

/-- A token that does not end the heading begins or continues its `use` clause. -/
theorem Pending.Notes.concat (h : p.Notes seen) (ht : ¬ EndsHeading seen t) {inUse : Bool}
    {used : List Token}
    (hinUse : inUse = true ↔ p.inUse = true ∨ p.function = true ∧ IsWord [useWord] seen t)
    (hused : ∀ v, v ∈ used ↔ v ∈ p.used ∨ p.inUse = true ∧ v = t ∧ t.kind = .variable) :
    Pending.Notes (seen ++ [t]) ⟨p.keyword, p.function, inUse, used⟩ := by
  refine ⟨fun n => ?_, ?_, ?_, fun v => ?_⟩
  · rw [Heading.exists_concat_iff ht, h.keyword]
    rfl
  · rw [Heading.exists_concat_iff ht, h.function]
    rfl
  · simp only [Heading.exists_concat_iff ht, hinUse, h.inUse, h.function,
      Heading.exists_clause_concat_iff _ ht]
    constructor
    · rintro (⟨g, hfun, hclause⟩ | ⟨⟨g, hfun⟩, hword⟩)
      · exact ⟨g, hfun, .inl hclause⟩
      · exact ⟨g, hfun, .inr hword⟩
    · rintro ⟨g, hfun, hclause | hword⟩
      · exact .inl ⟨g, hfun, hclause⟩
      · exact .inr ⟨⟨g, hfun⟩, hword⟩
  · simp only [Heading.exists_concat_iff ht, hused, h.used, h.inUse,
      Heading.captures_concat_iff _ ht, exists_or, exists_and_right]

end

/-- The opening braces that are not closed, from the last one on, each with what had been
noted before it. -/
inductive Opened : List Token → List (Option Nat × List Token) → Prop where
  | nil {seen : List Token} (h : AllClosed seen) : Opened seen []
  | cons {outer inside : List Token} {o : Token} {p : Pending}
    {opened : List (Option Nat × List Token)} (houter : Opened outer opened) (hp : p.Notes outer)
    (ho : IsOpening o) (hinside : Balanced inside) :
    Opened (outer ++ o :: inside) ((p.keyword, p.used) :: opened)

/-- Balanced tokens leave the open braces alone. -/
theorem Opened.append {seen more : List Token} {opened : List (Option Nat × List Token)}
    (h : Opened seen opened) (hmore : Balanced more) : Opened (seen ++ more) opened := by
  cases h with
  | nil h => exact .nil (h.append hmore.allClosed)
  | cons houter hp ho hinside =>
    rw [List.append_assoc, List.cons_append]
    exact .cons houter hp ho (hinside.append hmore)

/-- The bodies found and the variables captured are those of the declarations. -/
structure Declared (seen : List Token) (found : Scopes) : Prop where
  spans : ∀ span, span ∈ found.spans ↔ ∃ d : Declaration seen, d.span = span
  captures : ∀ n span, (n, span) ∈ found.captures ↔
    ∃ d : Declaration seen, d.span = span ∧ ∃ v, d.heading.Captures v ∧ v.start = n

section

variable {seen : List Token} {t : Token}

/-- A token that completes no declaration. -/
theorem Declared.concat {found : Scopes} (h : Declared seen found)
    (hnone : IsClosing t → ∀ (outer inside : List Token) (o : Token),
      seen = outer ++ o :: inside → IsOpening o → Balanced inside → IsEmpty (Heading outer)) :
    Declared (seen ++ [t]) found := by
  have hiff : ∀ q : Declaration (seen ++ [t]) → Prop,
      (∃ d : Declaration seen, q (d.concat t)) ↔ ∃ d, q d := by
    intro q
    constructor
    · rintro ⟨d, hd⟩
      exact ⟨d.concat t, hd⟩
    · rintro ⟨d, hd⟩
      rcases d.concat_cases with ⟨d', rfl⟩ | ⟨_, _, _, hseen, heading, ho, hinside, ht, -⟩
      · exact ⟨d', hd⟩
      · exact (hnone ht _ _ _ hseen ho hinside).elim heading
  refine ⟨fun span => ?_, fun n span => ?_⟩
  · rw [h.spans]
    exact hiff fun d => d.span = span
  · rw [h.captures]
    exact hiff fun d => d.span = span ∧ ∃ v, d.heading.Captures v ∧ v.start = n

/-- A closing brace completes the declaration whose heading is before its opening brace. -/
theorem Declared.close {outer inside : List Token} {o : Token} {found : Scopes}
    (h : Declared seen found) (hseen : seen = outer ++ o :: inside) {p : Pending}
    (hp : p.Notes outer) {start : Nat} (hstart : p.keyword = some start) (ho : IsOpening o)
    (hinside : Balanced inside) (ht : IsClosing t) :
    Declared (seen ++ [t])
      ⟨found.spans ++ [⟨start, t.stop⟩],
        found.captures ++ p.used.map fun v => (v.start, ⟨start, t.stop⟩)⟩ := by
  have hiff : ∀ q : Declaration (seen ++ [t]) → Prop,
      (∃ d, q d) ↔ (∃ d : Declaration seen, q (d.concat t)) ∨
        ∃ heading : Heading outer, q (.close hseen heading ho hinside ht) := by
    intro q
    constructor
    · rintro ⟨d, hd⟩
      rcases d.concat_cases with
        ⟨d', rfl⟩ | ⟨outer', inside', o', hsplit, heading, ho', hinside', _, rfl⟩
      · exact .inl ⟨d', hd⟩
      · obtain ⟨rfl, rfl, rfl⟩ := hinside.opening_unique hinside' ho ho' (hseen.symm.trans hsplit)
        exact .inr ⟨heading, hd⟩
    · rintro (⟨d, hd⟩ | ⟨heading, hd⟩)
      · exact ⟨_, hd⟩
      · exact ⟨_, hd⟩
  have hspan : ∀ heading : Heading outer,
      (Declaration.close hseen heading ho hinside ht).span = ⟨start, t.stop⟩ := by
    intro heading
    have hsome := (hp.keyword _).mpr ⟨heading, rfl⟩
    rw [hstart] at hsome
    rw [Option.some.inj hsome]
    rfl
  refine ⟨fun span => ?_, fun n span => ?_⟩
  · rw [List.mem_append, List.mem_singleton, h.spans, hiff]
    refine or_congr Iff.rfl ?_
    simp only [hspan, exists_const_iff, eq_comm, iff_and_self]
    obtain ⟨heading, -⟩ := (hp.keyword start).mp hstart
    exact fun _ => ⟨heading⟩
  · rw [List.mem_append, List.mem_map, h.captures, hiff]
    refine or_congr Iff.rfl ?_
    simp only [hspan, hp.used]
    constructor
    · rintro ⟨v, ⟨heading, hcaptures⟩, heq⟩
      obtain ⟨rfl, rfl⟩ := Prod.mk.inj heq
      exact ⟨heading, rfl, v, hcaptures, rfl⟩
    · rintro ⟨heading, rfl, v, hcaptures, rfl⟩
      exact ⟨v, ⟨heading, hcaptures⟩, rfl⟩

/-- What a token does to the scan, by what it is behind the tokens seen. -/
inductive Effect (seen : List Token) (t : Token) (s : Scan) : Scan → Prop where
  | keyword (h : IsWord scopeWords seen t) : Effect seen t s
      { s with pending := ⟨some t.start, Token.lowerBytes t.value = functionWord, false, []⟩ }
  | use (h : IsWord [useWord] seen t) : Effect seen t s
      { s with pending := { s.pending with inUse := s.pending.inUse || s.pending.function } }
  | variable (h : t.kind = .variable) : Effect seen t s
      { s with pending :=
          { s.pending with used := s.pending.used ++ if s.pending.inUse then [t] else [] } }
  | semicolon (h : t.value = [semicolon]) : Effect seen t s { s with pending := .none }
  | opening (h : IsOpening t) : Effect seen t s
      { s with pending := .none, opened := (s.pending.keyword, s.pending.used) :: s.opened }
  | closing (h : IsClosing t) : Effect seen t s (s.close t.stop)
  | other (hends : ¬ EndsHeading seen t) (hclosing : ¬ IsClosing t)
    (huse : ¬ IsWord [useWord] seen t) (hvariable : t.kind ≠ .variable) : Effect seen t s s

/-- A variable or a name is no brace and no semicolon. -/
theorem not_mark_of_spelled (ht : Spelled t.kind t.value) (hkind : t.kind ≠ .punct) :
    t.value ≠ [semicolon] ∧ t.value ≠ [openBrace] ∧ t.value ≠ [closeBrace] := by
  have hmark := not_mem_marks_of_spelled hkind ht
  simp only [marks, List.mem_append, List.mem_cons, List.not_mem_nil, or_false, not_or] at hmark
  exact hmark.2

theorem not_endsHeading_of_spelled (ht : Spelled t.kind t.value) (hkind : t.kind ≠ .punct)
    (hword : ¬ IsWord scopeWords seen t) : ¬ EndsHeading seen t := by
  obtain ⟨hsemicolon, hopening, -⟩ := not_mark_of_spelled ht hkind
  rintro (h | h | h)
  · exact hopening h
  · exact hsemicolon h
  · exact hword h

theorem IsWord.ne_punct {words : List Bytes} (h : IsWord words seen t) : t.kind ≠ .punct := by
  rw [h.kind]
  decide

/-- A brace or a semicolon is no word. -/
theorem not_isWord_of_mark (ht : Spelled t.kind t.value)
    (hmark : t.value = [semicolon] ∨ t.value = [openBrace] ∨ t.value = [closeBrace])
    (words : List Bytes) : ¬ IsWord words seen t := by
  intro hword
  obtain ⟨hsemicolon, hopening, hclosing⟩ := not_mark_of_spelled ht hword.ne_punct
  rcases hmark with h | h | h
  · exact hsemicolon h
  · exact hopening h
  · exact hclosing h

/-- The word `use` counts only behind the keyword of a function. -/
theorem Scan.declare_use (s : Scan) (ht : Spelled t.kind t.value) (hkind : t.kind = .identifier)
    (hword : Token.lowerBytes t.value = useWord) :
    s.declare t =
      { s with pending := { s.pending with inUse := s.pending.inUse || s.pending.function } } := by
  obtain ⟨hsemicolon, hopening, hclosing⟩ := not_mark_of_spelled ht (by rw [hkind]; decide)
  have hscope : useWord ∉ scopeWords := by decide
  rw [Scan.declare, if_neg fun h => hscope (hword ▸ h.2)]
  by_cases hfunction : s.pending.function = true
  · rw [if_pos ⟨hkind, hfunction, hword⟩, hfunction, Bool.or_true]
  · rw [if_neg fun h => hfunction h.2.1, if_neg (by simp [hkind]), if_neg hsemicolon,
      if_neg hopening, if_neg hclosing, Bool.eq_false_iff.mpr hfunction, Bool.or_false]

theorem Scan.declare_variable (s : Scan) (ht : Spelled t.kind t.value)
    (hkind : t.kind = .variable) :
    s.declare t =
      { s with pending :=
          { s.pending with used := s.pending.used ++ if s.pending.inUse then [t] else [] } } := by
  obtain ⟨hsemicolon, hopening, hclosing⟩ := not_mark_of_spelled ht (by rw [hkind]; decide)
  rw [Scan.declare, if_neg (by simp [hkind]), if_neg (by simp [hkind])]
  by_cases hinUse : s.pending.inUse = true
  · rw [if_pos ⟨hkind, hinUse⟩, if_pos hinUse]
  · rw [if_neg fun h => hinUse h.2, if_neg hsemicolon, if_neg hopening, if_neg hclosing,
      if_neg hinUse, List.append_nil]

theorem effect_step {s : Scan} (hmember : s.member = true ↔ AfterMark seen)
    (ht : Spelled t.kind t.value) :
    ∃ next, Effect seen t s next ∧
      s.step t = { next with member := decide (t.value ∈ memberMarks) } := by
  by_cases hname : s.member = true ∧ t.kind = .identifier
  · -- a member name
    have hword : ∀ words, ¬ IsWord words seen t := fun words h => h.free (hmember.mp hname.1)
    have hkind : t.kind ≠ .punct := by rw [hname.2]; decide
    exact ⟨s, .other (not_endsHeading_of_spelled ht hkind (hword _))
      (not_mark_of_spelled ht hkind).2.2 (hword _) (by rw [hname.2]; decide),
      by rw [Scan.step, if_pos hname]⟩
  refine ⟨s.declare t, ?_, by rw [Scan.step, if_neg hname]⟩
  have hfree : t.kind = .identifier → ¬ AfterMark seen :=
    fun hkind hafter => hname ⟨hmember.mpr hafter, hkind⟩
  by_cases hkeyword : t.kind = .identifier ∧ Token.lowerBytes t.value ∈ scopeWords
  · rw [Scan.declare, if_pos hkeyword]
    exact .keyword ⟨hkeyword.1, hkeyword.2, hfree hkeyword.1⟩
  by_cases huse : t.kind = .identifier ∧ Token.lowerBytes t.value = useWord
  · rw [s.declare_use ht huse.1 huse.2]
    exact .use ⟨huse.1, List.mem_singleton.mpr huse.2, hfree huse.1⟩
  by_cases hvariable : t.kind = .variable
  · rw [s.declare_variable ht hvariable]
    exact .variable hvariable
  rw [Scan.declare, if_neg hkeyword, if_neg fun h => huse ⟨h.1, h.2.2⟩,
    if_neg fun h => hvariable h.1]
  split_ifs with hsemicolon hopening hclosing
  · exact .semicolon hsemicolon
  · exact .opening hopening
  · exact .closing hclosing
  · refine .other ?_ hclosing (fun h => huse ⟨h.kind, List.mem_singleton.mp h.word⟩) hvariable
    rintro (h | h | h)
    · exact hopening h
    · exact hsemicolon h
    · exact hkeyword ⟨h.kind, h.word⟩

/-- The scan after some tokens. -/
structure Scan.Follows (seen : List Token) (s : Scan) : Prop where
  member : s.member = true ↔ AfterMark seen
  pending : s.pending.Notes seen
  opened : Opened seen s.opened
  found : Declared seen s.found

theorem Scan.follows_initial : Scan.initial.Follows [] := by
  have hheading : IsEmpty (Heading []) := ⟨fun h => by simpa using h.tokens_eq⟩
  have hdeclaration : IsEmpty (Declaration []) := ⟨fun d => by simpa using d.tokens_eq⟩
  refine ⟨?_, Pending.notes_none hheading, .nil allClosed_nil, fun span => ?_, fun n span => ?_⟩
  · simp [Scan.initial, AfterMark]
  · simp [Scan.initial]
  · simp [Scan.initial]

theorem afterMark_concat : AfterMark (seen ++ [t]) ↔ t.value ∈ memberMarks := by
  simp [AfterMark]

theorem Scan.pending_close (s : Scan) (stop : Nat) : (s.close stop).pending = s.pending := by
  obtain ⟨pending, opened, found, member⟩ := s
  cases opened with
  | nil => rfl
  | cons o outer =>
    obtain ⟨keyword, used⟩ := o
    cases keyword <;> rfl

/-- A closing brace takes away the last open brace, if there is one, and completes its body. -/
theorem Scan.Follows.close {s : Scan} (h : s.Follows seen) (ht : IsClosing t) :
    Opened (seen ++ [t]) (s.close t.stop).opened ∧
      Declared (seen ++ [t]) (s.close t.stop).found := by
  obtain ⟨pending, opened, found, member⟩ := s
  obtain ⟨-, -, hopened, hfound⟩ := h
  cases hopened with
  | nil hclosed =>
    have hopening : ¬ IsOpening t := fun ho => ho.not_isClosing ht
    refine ⟨.nil (hclosed.append (allClosed_singleton hopening)), hfound.concat ?_⟩
    rintro - outer inside o rfl ho hinside
    exact absurd hinside (hclosed.not_opening ho)
  | @cons outer inside o p opened houter hp ho hinside =>
    have hmore : Opened (outer ++ o :: inside ++ [t]) opened := by
      rw [List.append_assoc]
      exact houter.append (.pair ho hinside ht .nil)
    cases hkeyword : p.keyword with
    | none =>
      refine ⟨hmore, hfound.concat ?_⟩
      rintro - outer' inside' o' hseen ho' hinside'
      obtain ⟨rfl, -⟩ := hinside.opening_unique hinside' ho ho' hseen
      refine ⟨fun heading => ?_⟩
      have hsome := (hp.keyword _).mpr ⟨heading, rfl⟩
      rw [hkeyword] at hsome
      cases hsome
    | some start => exact ⟨hmore, hfound.close rfl hp hkeyword ho hinside ht⟩

/-- What has been noted after a token. -/
theorem Effect.notes {s next : Scan} (heffect : Effect seen t s next)
    (ht : Spelled t.kind t.value) (h : s.pending.Notes seen) :
    next.pending.Notes (seen ++ [t]) := by
  cases heffect with
  | keyword hword => exact Pending.notes_keyword hword
  | use hword =>
    have hscope : ¬ IsWord scopeWords seen t := by
      intro hkeyword
      have huse := hkeyword.word
      rw [List.mem_singleton.mp hword.word] at huse
      exact absurd huse (by decide)
    exact h.concat (not_endsHeading_of_spelled ht hword.ne_punct hscope) (by simp [hword])
      (by simp [hword.kind])
  | «variable» hkind =>
    have hpunct : t.kind ≠ .punct := by rw [hkind]; decide
    have hword : ∀ words, ¬ IsWord words seen t := by
      intro words hword
      rw [hword.kind] at hkind
      cases hkind
    refine h.concat (not_endsHeading_of_spelled ht hpunct (hword _)) (by simp [hword]) ?_
    intro v
    by_cases hinUse : s.pending.inUse = true
    · simp [hinUse, hkind]
    · simp [hinUse]
  | semicolon hvalue =>
    exact Pending.notes_none
      (isEmpty_heading_of_mark (.inr hvalue) (not_isWord_of_mark ht (.inl hvalue) _))
  | opening hopening =>
    exact Pending.notes_none
      (isEmpty_heading_of_mark (.inl hopening) (not_isWord_of_mark ht (.inr (.inl hopening)) _))
  | closing hclosing =>
    have hword : ∀ words, ¬ IsWord words seen t := not_isWord_of_mark ht (.inr (.inr hclosing))
    have hends : ¬ EndsHeading seen t := by
      rintro (hopening | hsemicolon | hkeyword)
      · exact hopening.not_isClosing hclosing
      · rw [IsClosing, hsemicolon] at hclosing
        exact absurd hclosing (by decide)
      · exact hword _ hkeyword
    have hkind : t.kind ≠ .variable := by
      intro hkind
      exact (not_mark_of_spelled ht (by rw [hkind]; decide)).2.2 hclosing
    rw [s.pending_close]
    exact h.concat hends (by simp [hword]) (by simp [hkind])
  | other hends hclosing huse hvariable =>
    exact h.concat hends (by simp [huse]) (by simp [hvariable])

/-- Only braces touch the braces that are open and what has been found. -/
theorem Effect.braces {s next : Scan} (heffect : Effect seen t s next)
    (ht : Spelled t.kind t.value) :
    (IsOpening t ∧ next.opened = (s.pending.keyword, s.pending.used) :: s.opened ∧
        next.found = s.found) ∨
      (IsClosing t ∧ next = s.close t.stop) ∨
      (¬ IsOpening t ∧ ¬ IsClosing t ∧ next.opened = s.opened ∧ next.found = s.found) := by
  cases heffect with
  | keyword hword | use hword =>
    obtain ⟨-, hopening, hclosing⟩ := not_mark_of_spelled ht hword.ne_punct
    exact .inr (.inr ⟨hopening, hclosing, rfl, rfl⟩)
  | «variable» hkind =>
    obtain ⟨-, hopening, hclosing⟩ := not_mark_of_spelled ht (by rw [hkind]; decide)
    exact .inr (.inr ⟨hopening, hclosing, rfl, rfl⟩)
  | semicolon hvalue =>
    have hopening : ¬ IsOpening t := by rw [IsOpening, hvalue]; decide
    have hclosing : ¬ IsClosing t := by rw [IsClosing, hvalue]; decide
    exact .inr (.inr ⟨hopening, hclosing, rfl, rfl⟩)
  | opening hopening => exact .inl ⟨hopening, rfl, rfl⟩
  | closing hclosing => exact .inr (.inl ⟨hclosing, rfl⟩)
  | other hends hclosing =>
    exact .inr (.inr ⟨fun hopening => hends (.inl hopening), hclosing, rfl, rfl⟩)

theorem Scan.Follows.step {s : Scan} (h : s.Follows seen) (ht : Spelled t.kind t.value) :
    (s.step t).Follows (seen ++ [t]) := by
  obtain ⟨next, heffect, hstep⟩ := effect_step h.member ht
  suffices hnext : Opened (seen ++ [t]) next.opened ∧ Declared (seen ++ [t]) next.found by
    rw [hstep]
    exact ⟨decide_eq_true_iff.trans afterMark_concat.symm, heffect.notes ht h.pending, hnext.1,
      hnext.2⟩
  rcases heffect.braces ht with
    ⟨hopening, hopened, hfound⟩ | ⟨hclosing, rfl⟩ | ⟨hopening, hclosing, hopened, hfound⟩
  · rw [hopened, hfound]
    exact ⟨.cons h.opened h.pending hopening .nil,
      h.found.concat fun hclosing => absurd hclosing hopening.not_isClosing⟩
  · exact h.close hclosing
  · rw [hopened, hfound]
    exact ⟨h.opened.append (.other hopening hclosing .nil),
      h.found.concat fun hc => absurd hc hclosing⟩

theorem Scan.Follows.foldl {s : Scan} (h : s.Follows seen) {tokens : List Token}
    (hspelled : ∀ t ∈ tokens, Spelled t.kind t.value) :
    (tokens.foldl Scan.step s).Follows (seen ++ tokens) := by
  induction tokens generalizing seen s with
  | nil => rwa [List.append_nil]
  | cons t rest ih =>
    obtain ⟨ht, hrest⟩ := List.forall_mem_cons.mp hspelled
    have hmore := ih (h.step ht) hrest
    rwa [List.append_assoc, List.singleton_append] at hmore

/-- The scan finds what the tokens declare. -/
theorem declared_ofTokens {tokens : List Token}
    (hspelled : ∀ t ∈ tokens, Spelled t.kind t.value) : Declared tokens (ofTokens tokens) :=
  (Scan.follows_initial.foldl hspelled).found

end

/-! ### The scopes of a source -/

theorem Scan.spans_close (s : Scan) (stop : Nat) :
    (s.close stop).found.spans = s.found.spans ∨
      ∃ start : Nat, (s.close stop).found.spans = s.found.spans ++ [⟨start, stop⟩] := by
  obtain ⟨pending, opened, found, member⟩ := s
  cases opened with
  | nil => exact .inl rfl
  | cons o outer =>
    obtain ⟨keyword, used⟩ := o
    cases keyword with
    | none => exact .inl rfl
    | some start => exact .inr ⟨start, rfl⟩

/-- A token adds at most one span, which ends with it. -/
theorem Scan.Follows.spans_step {seen : List Token} {t : Token} {s : Scan} (h : s.Follows seen)
    (ht : Spelled t.kind t.value) :
    (s.step t).found.spans = s.found.spans ∨
      ∃ start : Nat, (s.step t).found.spans = s.found.spans ++ [⟨start, t.stop⟩] := by
  obtain ⟨next, heffect, hstep⟩ := effect_step h.member ht
  rw [hstep]
  rcases heffect.braces ht with ⟨-, -, hfound⟩ | ⟨-, rfl⟩ | ⟨-, -, -, hfound⟩
  · exact .inl (congrArg spans hfound)
  · exact s.spans_close t.stop
  · exact .inl (congrArg spans hfound)

/-- The spans are listed in the order of their ends. -/
theorem ordered_spans {tokens : List Token} (hspelled : ∀ t ∈ tokens, Spelled t.kind t.value)
    (hstops : tokens.Pairwise fun t u => t.stop < u.stop) :
    (ofTokens tokens).spans.Pairwise fun a b => a.stop < b.stop := by
  induction tokens using List.reverseRecOn with
  | nil => exact .nil
  | append_singleton seen t ih =>
    obtain ⟨hbefore, -, hlast⟩ := List.pairwise_append.mp hstops
    have hseen : ∀ u ∈ seen, Spelled u.kind u.value := fun u hu =>
      hspelled u (List.mem_append_left _ hu)
    have hordered := ih hseen hbefore
    have hspans : (ofTokens (seen ++ [t])).spans =
        ((seen.foldl Scan.step Scan.initial).step t).found.spans := by
      rw [ofTokens, List.foldl_append]
      rfl
    rcases (Scan.follows_initial.foldl hseen).spans_step (hspelled t (by simp)) with
      heq | ⟨start, heq⟩
    · rw [hspans, heq]
      exact hordered
    · rw [hspans, heq]
      refine List.pairwise_append.mpr ⟨hordered, List.pairwise_singleton .., ?_⟩
      intro a ha b hb
      obtain rfl := List.mem_singleton.mp hb
      obtain ⟨d, rfl⟩ := ((declared_ofTokens hseen).spans a).mp ha
      exact Int.ofNat_lt.mpr (hlast d.closing d.closing_mem t (by simp))

namespace Declared

variable {tokens : List Token} {found : Scopes}
  (hstarts : tokens.Pairwise fun t u => t.start < u.start)

include hstarts

theorem span_of_start (h : Declared tokens found) {a b : Span} (ha : a ∈ found.spans)
    (hb : b ∈ found.spans) (heq : a.start = b.start) : a = b := by
  obtain ⟨d, rfl⟩ := (h.spans a).mp ha
  obtain ⟨d', rfl⟩ := (h.spans b).mp hb
  rw [Declaration.eq_of_start hstarts (Int.ofNat_inj.mp heq)]

/-- A variable is captured by one closure only. -/
theorem captor_unique (h : Declared tokens found) {n : Nat} {a b : Span}
    (ha : (n, a) ∈ found.captures) (hb : (n, b) ∈ found.captures) : a = b := by
  obtain ⟨d, rfl, v, hv, hn⟩ := (h.captures n a).mp ha
  obtain ⟨d', rfl, v', hv', hn'⟩ := (h.captures n b).mp hb
  obtain ⟨seen, r, houter, g, hg⟩ := hv.exists_heading
  obtain ⟨seen', r', houter', g', hg'⟩ := hv'.exists_heading
  have hplace : tokens = seen ++ v :: (r ++ d.opening :: (d.inside ++ d.closing :: d.after)) := by
    rw [← List.cons_append, ← List.append_assoc, ← houter]
    exact d.tokens_eq
  have hplace' : tokens =
      seen' ++ v' :: (r' ++ d'.opening :: (d'.inside ++ d'.closing :: d'.after)) := by
    rw [← List.cons_append, ← List.append_assoc, ← houter']
    exact d'.tokens_eq
  obtain ⟨rfl, -⟩ := place_of_start hstarts hplace hplace' (hn.trans hn'.symm)
  have hkeyword : d.heading.keyword = d'.heading.keyword := by
    rw [← hg, ← hg', heading_unique g g']
  rw [Declaration.eq_of_start hstarts (congrArg Token.start hkeyword)]

/-- Looking a capture up finds it. -/
theorem captor?_eq_some_iff (h : Declared tokens found) {n : Nat} {span : Span} :
    found.captor? n = some span ↔ (n, span) ∈ found.captures := by
  refine ⟨captor?_mem, fun hmem => ?_⟩
  have hfound : (found.captures.find? fun c => c.1 = n).isSome = true :=
    List.find?_isSome.mpr ⟨(n, span), hmem, decide_eq_true rfl⟩
  obtain ⟨c, hc⟩ := Option.isSome_iff_exists.mp hfound
  have hcaptor : found.captor? n = some c.2 := by rw [captor?, hc]; rfl
  rw [hcaptor, h.captor_unique hstarts (captor?_mem hcaptor) hmem]

end Declared

/-- The scopes of a source are its declarations: each span goes from the keyword of one
through the closing brace of its body, in the order of the closing braces and each from
another keyword, and a variable is captured by the function in whose `use` clause it is. -/
theorem ofTokens_declarations (source : Bytes) :
    let tokens := Token.scan source
    let scopes := ofTokens tokens
    (∀ span, span ∈ scopes.spans ↔ ∃ d : Declaration tokens, d.span = span) ∧
      scopes.spans.Pairwise (fun a b => a.stop < b.stop) ∧
      (scopes.spans.map Span.start).Nodup ∧
      (∀ n span, scopes.captor? n = some span ↔ (n, span) ∈ scopes.captures) ∧
      ∀ n span, (n, span) ∈ scopes.captures ↔
        ∃ d : Declaration tokens, d.span = span ∧ ∃ v, d.heading.Captures v ∧ v.start = n := by
  intro tokens scopes
  have hapart := apart_scan source
  have hdeclared : Declared tokens scopes := declared_ofTokens hapart.spelled
  have hstarts := Variable.pairwise_start source
  have hstops : tokens.Pairwise fun t u => t.stop < u.stop := by
    refine (Token.pairwise_before hapart).imp_of_mem fun _ hu hbefore => ?_
    exact Nat.lt_of_le_of_lt hbefore.1 (hapart.bounds _ hu).2.1
  have hordered := ordered_spans hapart.spelled hstops
  refine ⟨hdeclared.spans, hordered, ?_, fun n span => hdeclared.captor?_eq_some_iff hstarts,
    hdeclared.captures⟩
  refine List.Nodup.map_on (fun a ha b hb heq => hdeclared.span_of_start hstarts ha hb heq) ?_
  exact hordered.imp fun hlt heq => absurd (congrArg Span.stop heq) (Int.ne_of_lt hlt)

end RenameServer.Scopes
