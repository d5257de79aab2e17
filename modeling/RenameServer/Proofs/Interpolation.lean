import Mathlib.Algebra.Group.Nat.Even
import Mathlib.Data.List.DropRight
import RenameServer.Proofs.Alignment

/-!
The variables that are interpolated into a double-quoted literal. The literal reads its
backslashes in pairs with the byte that follows, so a dollar sign is escaped after an odd number
of them. A variable is reported if none stands before it. The two rules differ for a variable
after two, four or more backslashes, which is interpolated and not reported.
-/
namespace RenameServer

open Utf8 (Bytes)
open Respelling

/-! ### Pairs of a literal -/

namespace Lexeme

/-- The number of backslashes at the end. -/
def backslashes (p : Bytes) : Nat := (p.rtakeWhile (· = backslash)).length

theorem exists_backslashes (p : Bytes) :
    ∃ q, p = q ++ List.replicate (backslashes p) backslash ∧ q.getLast? ≠ some backslash := by
  refine ⟨p.rdropWhile (· = backslash), ?_, fun hlast => ?_⟩
  · have hrun : p.rtakeWhile (· = backslash) = List.replicate (backslashes p) backslash :=
      List.eq_replicate_length.mpr fun b hb => by simpa using List.mem_rtakeWhile_imp hb
    rw [← hrun, List.rdropWhile_append_rtakeWhile]
  · have hne : p.rdropWhile (· = backslash) ≠ [] := by
      intro hnil
      simp [hnil] at hlast
    rw [List.getLast?_eq_some_getLast hne] at hlast
    exact List.rdropWhile_last_not _ _ hne (by simpa using hlast)

theorem backslashes_eq_zero_iff {p : Bytes} : backslashes p = 0 ↔ p.getLast? ≠ some backslash := by
  obtain ⟨q, hp, hq⟩ := exists_backslashes p
  generalize backslashes p = k at hp
  cases k with
  | zero => simpa [hp] using hq
  | succ k => simp [hp, List.replicate_succ']

variable {quote : UInt8} {last s : Bytes}

/-- A body can be cut behind any byte other than a backslash: even the second byte of a pair
ends the pair. -/
theorem Body.of_append (h : Body quote last s) {q x : Bytes} (hs : s = q ++ x)
    (hx : last.length < x.length) (hq : q.getLast? ≠ some backslash) : Body quote [] q := by
  induction h generalizing q with
  | last =>
    have hlength := congrArg List.length hs
    rw [List.length_append] at hlength
    omega
  | @escaped c s h ih =>
    rcases q with _ | ⟨b, _ | ⟨d, q⟩⟩
    · exact .last
    · obtain ⟨rfl, -⟩ := List.cons.inj hs
      exact absurd rfl hq
    · obtain ⟨rfl, htail⟩ := List.cons.inj hs
      obtain ⟨rfl, hrest⟩ := List.cons.inj htail
      refine .escaped c (ih hrest fun hlast => hq ?_)
      exact getLast?_cons_of_some (getLast?_cons_of_some hlast c) backslash
  | @plain b s hquote hescape h ih =>
    cases q with
    | nil => exact .last
    | cons d q =>
      obtain ⟨rfl, hrest⟩ := List.cons.inj hs
      exact .plain hquote hescape (ih hrest fun hlast => hq (getLast?_cons_of_some hlast b))

theorem body_escaped_iff {c : UInt8} : Body quote [] (backslash :: c :: s) ↔ Body quote [] s := by
  refine ⟨fun h => ?_, .escaped c⟩
  cases h with
  | escaped _ h => exact h
  | plain _ hescape _ => exact absurd rfl hescape

theorem body_plain_iff {b : UInt8} (hquote : b ≠ quote) (hescape : b ≠ backslash) :
    Body quote [] (b :: s) ↔ Body quote [] s := by
  refine ⟨fun h => ?_, .plain hquote hescape⟩
  cases h with
  | escaped _ _ => exact absurd rfl hescape
  | plain _ _ h => exact h

theorem Body.append_iff {p : Bytes} (h : Body quote [] p) :
    Body quote [] (p ++ s) ↔ Body quote [] s := by
  induction h with
  | last => rfl
  | escaped c h ih => exact body_escaped_iff.trans ih
  | plain hquote hescape h ih => exact (body_plain_iff hquote hescape).trans ih

theorem body_replicate_iff (quote : UInt8) (k : Nat) :
    Body quote [] (List.replicate k backslash) ↔ Even k := by
  induction k using Nat.twoStepInduction with
  | zero => exact iff_of_true .last ⟨0, rfl⟩
  | one =>
    refine iff_of_false (fun h => ?_) (by decide)
    cases h with
    | plain _ hescape _ => exact hescape rfl
  | more k ih _ =>
    rw [List.replicate_succ, List.replicate_succ, body_escaped_iff, ih]
    simp [Nat.even_add, (by decide : Even 2)]

/-- Where a body goes on, what has been read of it consists of whole pairs if the number of
backslashes at its end is even. -/
theorem Body.even_backslashes_iff (h : Body quote last s) {p x : Bytes} (hs : s = p ++ x)
    (hx : last.length < x.length) : Body quote [] p ↔ Even (backslashes p) := by
  obtain ⟨q, hp, hq⟩ := exists_backslashes p
  have hcut : s = q ++ (List.replicate (backslashes p) backslash ++ x) := by
    rw [← List.append_assoc, ← hp, hs]
  have hbody : Body quote [] q := h.of_append hcut (by rw [List.length_append]; omega) hq
  calc Body quote [] p
      ↔ Body quote [] (q ++ List.replicate (backslashes p) backslash) := by rw [← hp]
    _ ↔ Body quote [] (List.replicate (backslashes p) backslash) := hbody.append_iff
    _ ↔ Even (backslashes p) := body_replicate_iff quote _

/-- Every lexeme of a source starts in one of the ways that there are, behind the bytes of the
lexemes before it, and the lexemes after it are those of the rest. -/
theorem starts_of_cut {source : Bytes} {before after : List Lexeme} {l : Lexeme}
    (h : cut source = before ++ l :: after) :
    ∃ b rest n, Starts b rest l.kind n ∧ l.bytes = b :: rest.take n ∧
      source = before.flatMap Lexeme.bytes ++ b :: rest ∧ after = cut (rest.drop n) := by
  induction before generalizing source with
  | nil =>
    cases source with
    | nil => simp [cut] at h
    | cons b rest =>
      rw [cut] at h
      obtain ⟨rfl, rfl⟩ := List.cons.inj h
      exact ⟨b, rest, (extent b rest).2, starts_extent b rest, rfl, rfl, rfl⟩
  | cons first before ih =>
    cases source with
    | nil => simp [cut] at h
    | cons b rest =>
      rw [cut] at h
      obtain ⟨rfl, hrest⟩ := List.cons.inj h
      obtain ⟨c, more, n, hstarts, hbytes, hsource, hafter⟩ := ih hrest
      refine ⟨c, more, n, hstarts, hbytes, ?_, hafter⟩
      rw [List.flatMap_cons, List.append_assoc, ← hsource, List.cons_append, List.take_append_drop]

theorem exists_starts_of_mem_cut {source : Bytes} {l : Lexeme} (h : l ∈ cut source) :
    ∃ b rest n, Starts b rest l.kind n ∧ l.bytes = b :: rest.take n := by
  obtain ⟨before, after, hcut⟩ := List.append_of_mem h
  obtain ⟨b, rest, n, hstarts, hbytes, -, -⟩ := starts_of_cut hcut
  exact ⟨b, rest, n, hstarts, hbytes⟩

/-- What is found in lexemes of which the first starts at `start`. -/
def collect {α : Type} (found : Nat → Lexeme → List α) (start : Nat) : List Lexeme → List α
  | [] => []
  | l :: rest => found start l ++ collect found (start + l.bytes.length) rest

theorem exists_of_mem_collect {α : Type} {found : Nat → Lexeme → List α} {start : Nat}
    {ls : List Lexeme} {x : α} (h : x ∈ collect found start ls) :
    ∃ before l after, ls = before ++ l :: after ∧
      x ∈ found (start + (before.flatMap Lexeme.bytes).length) l := by
  induction ls generalizing start with
  | nil => cases h
  | cons l ls ih =>
    rcases List.mem_append.mp h with h | h
    · exact ⟨[], l, ls, rfl, h⟩
    · obtain ⟨before, k, after, rfl, hk⟩ := ih h
      rw [Nat.add_assoc, ← List.length_append, ← List.flatMap_cons] at hk
      exact ⟨l :: before, k, after, rfl, hk⟩

/-- A double-quoted literal is a quote and a body that is closed or runs to the end. -/
theorem exists_body_of_mem_cut {source bytes : Bytes} (h : ⟨.double, bytes⟩ ∈ cut source) :
    ∃ s, bytes = doubleQuote :: s ∧ ∃ last, last.length ≤ 1 ∧ Body doubleQuote last s := by
  obtain ⟨b, rest, n, hstarts, hbytes⟩ := exists_starts_of_mem_cut h
  cases hstarts with
  | double hlength =>
    refine ⟨rest.take n, hbytes, ?_⟩
    rcases literalLength?_eq_some (by decide) hlength with hbody | ⟨rfl, hbody⟩
    · exact ⟨[doubleQuote], Nat.le_refl 1, hbody⟩
    · exact ⟨[], Nat.zero_le 1, by rwa [List.take_length]⟩

end Lexeme

/-! ### Variables of a literal -/

namespace Token

open Lexeme

/-- A dollar sign with a whole name, after the first bytes of `s`. -/
def Occurs (s p name : Bytes) : Prop :=
  IsName name ∧ ∃ r, s = p ++ dollar :: (name ++ r) ∧ r.head?.any isNameByte = false

theorem Occurs.cons {s p name : Bytes} (h : Occurs s p name) (b : UInt8) :
    Occurs (b :: s) (b :: p) name := by
  obtain ⟨hname, r, rfl, hr⟩ := h
  exact ⟨hname, r, rfl, hr⟩

theorem occurs_cons_cases {b : UInt8} {s p name : Bytes} (h : Occurs (b :: s) p name) :
    (p = [] ∧ b = dollar ∧ s.head?.any isNameStart = true ∧ s.takeWhile isNameByte = name) ∨
      ∃ q, p = b :: q ∧ Occurs s q name := by
  obtain ⟨hname, r, hs, hr⟩ := h
  cases p with
  | nil =>
    obtain ⟨rfl, rfl⟩ := List.cons.inj hs
    have hbytes := hname.isNameByte
    obtain ⟨c, more, rfl, hc, -⟩ := hname
    exact .inl ⟨rfl, rfl, by simpa using hc, takeWhile_append_stop hbytes hr⟩
  | cons d q =>
    obtain ⟨rfl, hrest⟩ := List.cons.inj hs
    exact .inr ⟨q, rfl, hname, r, hrest, hr⟩

/-- The scan of a literal finds what has no backslash right before it. -/
theorem mem_interpolated_iff {start : Nat} {previous : UInt8} {s : Bytes} {t : Token} :
    t ∈ interpolated start previous s ↔
      ∃ p name, Occurs s p name ∧ (previous :: p).getLast? ≠ some backslash ∧
        t = ⟨.variable, start + p.length, dollar :: name⟩ := by
  induction s generalizing start previous with
  | nil =>
    refine iff_of_false List.not_mem_nil ?_
    rintro ⟨p, name, ⟨-, r, hs, -⟩, -⟩
    simp at hs
  | cons b rest ih =>
    have hlater : t ∈ interpolated (start + 1) b rest ↔
        ∃ q name, Occurs rest q name ∧ (previous :: b :: q).getLast? ≠ some backslash ∧
          t = ⟨.variable, start + (b :: q).length, dollar :: name⟩ := by
      rw [ih]
      simp only [List.getLast?_cons_cons, List.length_cons, Nat.add_assoc, Nat.add_comm 1]
    constructor
    · intro h
      have hbehind : t ∈ interpolated (start + 1) b rest →
          ∃ p name, Occurs (b :: rest) p name ∧ (previous :: p).getLast? ≠ some backslash ∧
            t = ⟨.variable, start + p.length, dollar :: name⟩ := by
        intro hmem
        obtain ⟨q, name, hq, hlast, ht⟩ := hlater.mp hmem
        exact ⟨b :: q, name, hq.cons b, hlast, ht⟩
      by_cases hvariable : b = dollar ∧ previous ≠ backslash ∧ rest.head?.any isNameStart = true
      · rw [interpolated, if_pos hvariable] at h
        rcases List.mem_cons.mp h with rfl | hmem
        · obtain ⟨rfl, hprevious, hhead⟩ := hvariable
          obtain ⟨name, r, rfl, hname, hr⟩ := exists_isName_append hhead
          refine ⟨[], name, ⟨hname, r, rfl, hr⟩, by simpa using hprevious, ?_⟩
          rw [takeWhile_append_stop hname.isNameByte hr]
          rfl
        · exact hbehind hmem
      · rw [interpolated, if_neg hvariable] at h
        exact hbehind h
    · rintro ⟨p, name, hp, hlast, ht⟩
      rcases occurs_cons_cases hp with ⟨rfl, rfl, hhead, rfl⟩ | ⟨q, rfl, hq⟩
      · rw [interpolated, if_pos ⟨rfl, by simpa using hlast, hhead⟩, ht]
        exact List.mem_cons_self
      · have hmem := hlater.mpr ⟨q, name, hq, hlast, ht⟩
        rw [interpolated]
        split
        · exact List.mem_cons_of_mem _ hmem
        · exact hmem

theorem mem_literal_iff {start : Nat} {s : Bytes} {t : Token} :
    t ∈ ofLexeme start ⟨.double, doubleQuote :: s⟩ ↔
      ∃ p name, Occurs s p name ∧ backslashes p = 0 ∧
        t = ⟨.variable, start + 1 + p.length, dollar :: name⟩ := by
  have hlast : ∀ p : Bytes,
      (0 :: doubleQuote :: p).getLast? ≠ some backslash ↔ backslashes p = 0 := by
    intro p
    rw [backslashes_eq_zero_iff]
    cases p with
    | nil => decide
    | cons b p => rw [List.getLast?_cons_cons, List.getLast?_cons_cons]
  refine mem_interpolated_iff.trans ⟨?_, ?_⟩
  · rintro ⟨p, name, hp, hprevious, rfl⟩
    rcases occurs_cons_cases hp with ⟨-, hquote, -⟩ | ⟨q, rfl, hq⟩
    · exact absurd hquote (by decide)
    · refine ⟨q, name, hq, (hlast q).mp hprevious, ?_⟩
      rw [List.length_cons, Nat.add_assoc, Nat.add_comm 1]
  · rintro ⟨p, name, hp, hzero, rfl⟩
    refine ⟨doubleQuote :: p, name, hp.cons _, (hlast p).mpr hzero, ?_⟩
    rw [List.length_cons, Nat.add_assoc, Nat.add_comm 1]

/-! ### Literals of a source -/

theorem bounds_of_mem_ofLexeme {start : Nat} {l : Lexeme} {t : Token} (h : t ∈ ofLexeme start l) :
    start ≤ t.start ∧ t.stop ≤ start + l.bytes.length := by
  obtain ⟨kind, bytes⟩ := l
  cases kind with
  | comment | single | other => cases h
  | double =>
    obtain ⟨l, r, hbytes, hstart, -⟩ := exists_of_mem_interpolated h
    have hlength := congrArg List.length hbytes
    simp only [List.length_append] at hlength
    simp only [stop]
    omega
  | «variable» | identifier | punct =>
    obtain rfl := List.mem_singleton.mp h
    exact ⟨Nat.le_refl _, Nat.le_refl _⟩

theorem bounds_of_mem_ofLexemes {start : Nat} {ls : List Lexeme} {t : Token}
    (h : t ∈ ofLexemes start ls) :
    start ≤ t.start ∧ t.stop ≤ start + (ls.flatMap Lexeme.bytes).length := by
  induction ls generalizing start with
  | nil => cases h
  | cons l ls ih =>
    rw [List.flatMap_cons, List.length_append]
    rcases List.mem_append.mp h with h | h
    · have hbounds := bounds_of_mem_ofLexeme h
      omega
    · have hbounds := ih h
      omega

/-- The tokens that start inside a lexeme are those of the lexeme. -/
theorem mem_scan_inside_iff {source : Bytes} {before after : List Lexeme} {l : Lexeme}
    (h : cut source = before ++ l :: after) {t : Token} :
    let start := (before.flatMap Lexeme.bytes).length
    (t ∈ scan source ∧ start ≤ t.start ∧ t.start < start + l.bytes.length) ↔
      t ∈ ofLexeme start l := by
  intro start
  have hmem : t ∈ scan source ↔ t ∈ ofLexemes 0 before ∨ t ∈ ofLexeme start l ∨
      t ∈ ofLexemes (start + l.bytes.length) after := by
    rw [scan_of_cut h, List.mem_append, List.mem_append]
  constructor
  · rintro ⟨ht, hstart, hstop⟩
    have hpos := ((apart_scan source).bounds t ht).2.1
    rcases hmem.mp ht with hbefore | hl | hafter
    · have hbounds := bounds_of_mem_ofLexemes hbefore
      omega
    · exact hl
    · have hbounds := bounds_of_mem_ofLexemes hafter
      omega
  · intro hl
    have ht := hmem.mpr (.inr (.inl hl))
    have hpos := ((apart_scan source).bounds t ht).2.1
    have hbounds := bounds_of_mem_ofLexeme hl
    exact ⟨ht, hbounds.1, by omega⟩

theorem Occurs.place_unique {s p q name other : Bytes} (hp : Occurs s p name)
    (hq : Occurs s q other) (h : p.length = q.length) : p = q := by
  obtain ⟨-, r, rfl, -⟩ := hp
  obtain ⟨-, r', hs, -⟩ := hq
  exact (List.append_inj hs h).1

/-- The variables reported in a double-quoted literal are those that no backslash stands
before. By the pairs that delimit the literal a variable is escaped after an odd number of
backslashes, so the two agree unless a variable stands after two, four or more of them. -/
theorem literal_variables {source bytes : Bytes} {before after : List Lexeme}
    (h : cut source = before ++ ⟨.double, bytes⟩ :: after) :
    let start := (before.flatMap Lexeme.bytes).length
    let Reported := fun t => t ∈ scan source ∧ start ≤ t.start ∧ t.start < start + bytes.length
    let found := fun p name : Bytes => (⟨.variable, start + 1 + p.length, dollar :: name⟩ : Token)
    ∃ s, bytes = doubleQuote :: s ∧
      (∀ t, Reported t ↔ ∃ p name, Occurs s p name ∧ backslashes p = 0 ∧ t = found p name) ∧
      (∀ p name, Occurs s p name →
        (Reported (found p name) ↔ backslashes p = 0) ∧
        (Body doubleQuote [] p ↔ Even (backslashes p))) ∧
      ((∀ t, Reported t ↔
          ∃ p name, Occurs s p name ∧ Body doubleQuote [] p ∧ t = found p name) ↔
        ∀ p name, Occurs s p name → Even (backslashes p) → backslashes p = 0) := by
  intro start Reported found
  have hmem : ⟨.double, bytes⟩ ∈ cut source := by
    rw [h]
    simp
  obtain ⟨s, rfl, last, hlast, hbody⟩ := exists_body_of_mem_cut hmem
  have hreported : ∀ t, Reported t ↔
      ∃ p name, Occurs s p name ∧ backslashes p = 0 ∧ t = found p name :=
    fun t => (mem_scan_inside_iff h).trans mem_literal_iff
  have hfound : ∀ p name, Occurs s p name →
      (Reported (found p name) ↔ backslashes p = 0) := by
    intro p name hp
    rw [hreported]
    refine ⟨?_, fun hzero => ⟨p, name, hp, hzero, rfl⟩⟩
    rintro ⟨q, other, hq, hzero, heq⟩
    have hstart : start + 1 + p.length = start + 1 + q.length := congrArg Token.start heq
    rwa [hp.place_unique hq (by omega)]
  have heven : ∀ p name, Occurs s p name →
      (Body doubleQuote [] p ↔ Even (backslashes p)) := by
    rintro p name ⟨⟨b, more, rfl, -, -⟩, r, hs, -⟩
    exact hbody.even_backslashes_iff hs (by simp; omega)
  refine ⟨s, rfl, hreported, fun p name hp => ⟨hfound p name hp, heven p name hp⟩, ?_, ?_⟩
  · intro hall p name hp hp'
    exact (hfound p name hp).mp
      ((hall _).mpr ⟨p, name, hp, (heven p name hp).mpr hp', rfl⟩)
  · intro hnone t
    rw [hreported]
    constructor
    · rintro ⟨p, name, hp, hzero, ht⟩
      exact ⟨p, name, hp, (heven p name hp).mpr (hzero ▸ Even.zero), ht⟩
    · rintro ⟨p, name, hp, hwhole, ht⟩
      exact ⟨p, name, hp, hnone p name hp ((heven p name hp).mp hwhole), ht⟩

theorem isName_singleton {b : UInt8} (h : isNameStart b = true) : IsName [b] :=
  ⟨b, [], rfl, h, by simp⟩

/-- Variables after three backslashes, after two and after none. -/
theorem literal_variables_runs :
    let source := Utf8.encode "f(\"\\\\\\$x \\\\$y $z\")"
    let s := Utf8.encode "\\\\\\$x \\\\$y $z\""
    cut source = [⟨.identifier, Utf8.encode "f"⟩, ⟨.other, Utf8.encode "("⟩] ++
        ⟨.double, doubleQuote :: s⟩ :: [⟨.other, Utf8.encode ")"⟩] ∧
      (Occurs s (s.take 3) [0x78] ∧ ¬ Body doubleQuote [] (s.take 3)) ∧
      (Occurs s (s.take 8) [0x79] ∧ Body doubleQuote [] (s.take 8) ∧
        ⟨.variable, 11, [dollar, 0x79]⟩ ∉ scan source) ∧
      Occurs s (s.take 11) [0x7a] ∧ ⟨.variable, 14, [dollar, 0x7a]⟩ ∈ scan source := by
  intro source s
  have hcut : cut source = [⟨.identifier, Utf8.encode "f"⟩, ⟨.other, Utf8.encode "("⟩] ++
      ⟨.double, doubleQuote :: s⟩ :: [⟨.other, Utf8.encode ")"⟩] := by decide +kernel
  have hx : Occurs s (s.take 3) [0x78] :=
    ⟨isName_singleton (by decide), s.drop 5, by decide +kernel, by decide +kernel⟩
  have hy : Occurs s (s.take 8) [0x79] :=
    ⟨isName_singleton (by decide), s.drop 10, by decide +kernel, by decide +kernel⟩
  have hz : Occurs s (s.take 11) [0x7a] :=
    ⟨isName_singleton (by decide), s.drop 13, by decide +kernel, by decide +kernel⟩
  have hthree : backslashes (s.take 3) = 3 := by decide +kernel
  have htwo : backslashes (s.take 8) = 2 := by decide +kernel
  have hnone : backslashes (s.take 11) = 0 := by decide +kernel
  obtain ⟨s', hs, -, hfound, -⟩ := literal_variables hcut
  obtain rfl := (List.cons.inj hs).2
  refine ⟨hcut, ⟨hx, fun hbody => ?_⟩, ⟨hy, (hfound _ _ hy).2.mpr (by rw [htwo]; decide), ?_⟩,
    hz, ((hfound _ _ hz).1.mpr hnone).1⟩
  · exact absurd ((hfound _ _ hx).2.mp hbody) (by rw [hthree]; decide)
  · intro hmem
    have hzero := (hfound _ _ hy).1.mp ⟨hmem, by decide, by decide +kernel⟩
    rw [htwo] at hzero
    cases hzero

/-- After two backslashes a variable is not escaped, and it is not reported. -/
theorem literal_variable_missed :
    let source := Utf8.encode "\"\\\\$x\""
    let s := Utf8.encode "\\\\$x\""
    cut source = [⟨.double, doubleQuote :: s⟩] ∧ Occurs s [backslash, backslash] [0x78] ∧
      Body doubleQuote [] [backslash, backslash] ∧ scan source = [] :=
  ⟨by decide +kernel,
    ⟨isName_singleton (by decide), [doubleQuote], by decide +kernel, by decide⟩,
    .escaped backslash .last, by decide +kernel⟩

end Token

end RenameServer
