import Mathlib.Tactic.SplitIfs
import RenameServer.Source.Lexeme

/-!
How each kind of lexeme starts and where it ends. `Starts` lists the kinds with
their conditions and is the same relation as `extent`. The bytes of a literal
after its opening quote are plain bytes and escaped pairs; what stands last
tells whether it is closed, runs to the end of the source, or is no literal.
-/
namespace RenameServer.Lexeme

open Utf8 (Bytes)

/-- A byte that begins no lexeme of interest, before the bytes that follow it.
The conditions on single bytes hold by default where the byte is another one. -/
structure Idle (b : UInt8) (rest : Bytes) : Prop where
  not_name : isNameStart b = false := by decide
  not_hash : b ≠ hash := by decide
  not_mark : ¬(b = openBrace ∨ b = closeBrace ∨ b = semicolon) := by decide
  slash_alone : b = slash → rest.head? ≠ some slash ∧ rest.head? ≠ some star := by
    intro h; exact absurd h (by decide)
  single_dangling : b = singleQuote → literalLength? singleQuote rest = none := by
    intro h; exact absurd h (by decide)
  double_dangling : b = doubleQuote → literalLength? doubleQuote rest = none := by
    intro h; exact absurd h (by decide)
  dollar_alone : b = dollar → rest.head?.any isNameStart = false := by
    intro h; exact absurd h (by decide)
  colon_alone : b = colon → rest.head? ≠ some colon := by
    intro h; exact absurd h (by decide)
  minus_alone : b = minus → rest.head? ≠ some greater := by
    intro h; exact absurd h (by decide)

/-- The lexemes by kind: the first byte, what follows, and how much of that belongs to it. -/
inductive Starts : UInt8 → Bytes → Kind → Nat → Prop where
  | line (rest : Bytes) : Starts slash (slash :: rest) .comment (lineLength rest + 1)
  | block (rest : Bytes) : Starts slash (star :: rest) .comment (blockLength rest + 1)
  | hash (rest : Bytes) : Starts hash rest .comment (lineLength rest)
  | single {rest : Bytes} {n : Nat} (h : literalLength? singleQuote rest = some n) :
    Starts singleQuote rest .single n
  | double {rest : Bytes} {n : Nat} (h : literalLength? doubleQuote rest = some n) :
    Starts doubleQuote rest .double n
  | variable {rest : Bytes} (h : rest.head?.any isNameStart = true) :
    Starts dollar rest .variable (nameLength rest)
  | identifier {b : UInt8} (rest : Bytes) (h : isNameStart b = true) :
    Starts b rest .identifier (nameLength rest)
  | static (rest : Bytes) : Starts colon (colon :: rest) .punct 1
  | arrow (rest : Bytes) : Starts minus (greater :: rest) .punct 1
  | mark {b : UInt8} (rest : Bytes) (h : b = openBrace ∨ b = closeBrace ∨ b = semicolon) :
    Starts b rest .punct 0
  | other {b : UInt8} {rest : Bytes} (h : Idle b rest) : Starts b rest .other 0

/-- The bytes that decide a lexeme by themselves are all different from name bytes. -/
theorem isNameStart_eq_false_of_special {b : UInt8}
    (h : b ∈ [slash, hash, singleQuote, doubleQuote, dollar, colon, minus, openBrace, closeBrace,
      semicolon]) : isNameStart b = false := by
  have hall : ([slash, hash, singleQuote, doubleQuote, dollar, colon, minus, openBrace, closeBrace,
      semicolon].all fun b => !isNameStart b) = true := by decide
  simpa using List.all_eq_true.mp hall b h

theorem extent_of_starts {b : UInt8} {rest : Bytes} {kind : Kind} {n : Nat}
    (h : Starts b rest kind n) : extent b rest = (kind, n) := by
  cases h with
  | line rest => rfl
  | block rest => rfl
  | hash => rfl
  | single h =>
    unfold extent
    rw [if_neg (by decide), if_neg (by decide), if_pos rfl, h]
  | double h =>
    unfold extent
    rw [if_neg (by decide), if_neg (by decide), if_neg (by decide), if_pos rfl, h]
  | «variable» h =>
    cases rest with
    | nil => simp at h
    | cons c rest =>
      change (if isNameStart c then (Kind.variable, nameLength (c :: rest)) else (.other, 0)) = _
      rw [if_pos (by simpa using h)]
  | identifier rest h =>
    have hne : ∀ x ∈ [slash, hash, singleQuote, doubleQuote, dollar, colon, minus, openBrace,
        closeBrace, semicolon], b ≠ x := by
      rintro x hx rfl
      rw [isNameStart_eq_false_of_special hx] at h
      exact Bool.noConfusion h
    simp only [List.forall_mem_cons] at hne
    simp [extent, h, hne]
  | static rest => rfl
  | arrow rest => rfl
  | mark rest h => rcases h with rfl | rfl | rfl <;> rfl
  | other h =>
    obtain ⟨hname, hhash, hmark, hslash, hsingle, hdouble, hdollar, hcolon, hminus⟩ := h
    cases rest with
    | nil => grind [extent]
    | cons c rest => grind [extent]

theorem Starts.computed {b : UInt8} {rest : Bytes} {kind : Kind} {n : Nat}
    (h : Starts b rest kind n) : Starts b rest (extent b rest).1 (extent b rest).2 := by
  rw [extent_of_starts h]
  exact h

theorem starts_of_slash (rest : Bytes) :
    Starts slash rest (extent slash rest).1 (extent slash rest).2 := by
  cases rest with
  | nil => exact .other { slash_alone := fun _ => by simp }
  | cons c rest =>
    by_cases hslash : c = slash
    · subst hslash
      exact .line rest
    · by_cases hstar : c = star
      · subst hstar
        exact .block rest
      · exact Starts.computed (.other { slash_alone := fun _ => by simp [hslash, hstar] })

theorem starts_of_dollar (rest : Bytes) :
    Starts dollar rest (extent dollar rest).1 (extent dollar rest).2 := by
  by_cases hname : rest.head?.any isNameStart = true
  · exact (Starts.variable hname).computed
  · exact Starts.computed (.other { dollar_alone := fun _ => by simpa using hname })

theorem starts_of_single (rest : Bytes) :
    Starts singleQuote rest (extent singleQuote rest).1 (extent singleQuote rest).2 := by
  cases hlength : literalLength? singleQuote rest with
  | some n => exact (Starts.single hlength).computed
  | none => exact Starts.computed (.other { single_dangling := fun _ => hlength })

theorem starts_of_double (rest : Bytes) :
    Starts doubleQuote rest (extent doubleQuote rest).1 (extent doubleQuote rest).2 := by
  cases hlength : literalLength? doubleQuote rest with
  | some n => exact (Starts.double hlength).computed
  | none => exact Starts.computed (.other { double_dangling := fun _ => hlength })

/-- Every byte begins some lexeme, with the extent that is computed for it. -/
theorem starts_extent (b : UInt8) (rest : Bytes) :
    Starts b rest (extent b rest).1 (extent b rest).2 := by
  by_cases hslash : b = slash
  · subst hslash
    exact starts_of_slash rest
  by_cases hhash : b = hash
  · subst hhash
    exact .hash rest
  by_cases hsingle : b = singleQuote
  · subst hsingle
    exact starts_of_single rest
  by_cases hdouble : b = doubleQuote
  · subst hdouble
    exact starts_of_double rest
  by_cases hdollar : b = dollar
  · subst hdollar
    exact starts_of_dollar rest
  by_cases hname : isNameStart b = true
  · exact (Starts.identifier rest hname).computed
  by_cases hmark : b = openBrace ∨ b = closeBrace ∨ b = semicolon
  · exact (Starts.mark rest hmark).computed
  by_cases hcolon : b = colon ∧ rest.head? = some colon
  · obtain ⟨rfl, hhead⟩ := hcolon
    obtain ⟨more, rfl⟩ := List.head?_eq_some_iff.mp hhead
    exact .static more
  by_cases hminus : b = minus ∧ rest.head? = some greater
  · obtain ⟨rfl, hhead⟩ := hminus
    obtain ⟨more, rfl⟩ := List.head?_eq_some_iff.mp hhead
    exact .arrow more
  refine Starts.computed (.other ?_)
  exact {
    not_name := by simpa using hname
    not_hash := hhash
    not_mark := hmark
    slash_alone := fun h => absurd h hslash
    single_dangling := fun h => absurd h hsingle
    double_dangling := fun h => absurd h hdouble
    dollar_alone := fun h => absurd h hdollar
    colon_alone := fun h hhead => hcolon ⟨h, hhead⟩
    minus_alone := fun h hhead => hminus ⟨h, hhead⟩ }

/-- The relation and the function say the same. -/
theorem extent_eq_iff {b : UInt8} {rest : Bytes} {kind : Kind} {n : Nat} :
    extent b rest = (kind, n) ↔ Starts b rest kind n := by
  refine ⟨fun h => ?_, extent_of_starts⟩
  have hstarts := starts_extent b rest
  rwa [h] at hstarts

/-- Cutting takes one lexeme off the front. -/
theorem cut_of_starts {b : UInt8} {inside rest : Bytes} {kind : Kind} {n : Nat}
    (h : Starts b (inside ++ rest) kind n) (hn : n = inside.length) :
    cut (b :: (inside ++ rest)) = ⟨kind, b :: inside⟩ :: cut rest := by
  subst hn
  rw [cut]
  simp only [extent_eq_iff.mpr h, List.take_left, List.drop_left]

/-- Bytes of a literal after its opening quote: plain bytes and escaped pairs,
and then the bytes that are named. -/
inductive Body (quote : UInt8) (last : Bytes) : Bytes → Prop where
  | last : Body quote last last
  | escaped (c : UInt8) {s : Bytes} (h : Body quote last s) : Body quote last (backslash :: c :: s)
  | plain {b : UInt8} {s : Bytes} (hquote : b ≠ quote) (hescape : b ≠ backslash)
    (h : Body quote last s) : Body quote last (b :: s)

theorem literalLength?_plain {quote b : UInt8} (hquote : b ≠ quote) (hescape : b ≠ backslash)
    (s : Bytes) : literalLength? quote (b :: s) = (literalLength? quote s).map (· + 1) := by
  cases s with
  | nil => simp [literalLength?, hquote, hescape]
  | cons c s => rw [literalLength?, if_neg hquote, if_neg hescape]

theorem literalLength?_escaped {quote : UInt8} (hquote : quote ≠ backslash) (c : UInt8)
    (s : Bytes) :
    literalLength? quote (backslash :: c :: s) = (literalLength? quote s).map (· + 2) := by
  rw [literalLength?, if_neg hquote.symm, if_pos rfl]

theorem literalLength?_quote (quote : UInt8) (s : Bytes) :
    literalLength? quote (quote :: s) = some 1 := by
  cases s <;> simp [literalLength?]

/-- Up to what stands last, a body only adds to the length. -/
theorem Body.literalLength?_append {quote : UInt8} (hquote : quote ≠ backslash) {last s : Bytes}
    (h : Body quote last s) :
    ∃ k, s.length = last.length + k ∧ ∀ rest,
      literalLength? quote (s ++ rest) = (literalLength? quote (last ++ rest)).map (· + k) := by
  induction h with
  | last => exact ⟨0, rfl, fun rest => by simp⟩
  | @escaped c s h ih =>
    obtain ⟨k, hlength, ih⟩ := ih
    refine ⟨k + 2, by simp only [List.length_cons, hlength]; omega, fun rest => ?_⟩
    rw [List.cons_append, List.cons_append, literalLength?_escaped hquote, ih, Option.map_map]
    rfl
  | @plain b s hb hescape h ih =>
    obtain ⟨k, hlength, ih⟩ := ih
    refine ⟨k + 1, by simp only [List.length_cons, hlength]; omega, fun rest => ?_⟩
    rw [List.cons_append, literalLength?_plain hb hescape, ih, Option.map_map]
    rfl

/-- A closed literal ends with its quote, whatever follows. -/
theorem Body.closed {quote : UInt8} (hquote : quote ≠ backslash) {s : Bytes}
    (h : Body quote [quote] s) (rest : Bytes) :
    literalLength? quote (s ++ rest) = some s.length := by
  obtain ⟨k, hlength, heq⟩ := h.literalLength?_append hquote
  rw [heq, List.singleton_append, literalLength?_quote, hlength]
  simp

/-- A literal without a closing quote runs to the end of the source. -/
theorem Body.unclosed {quote : UInt8} (hquote : quote ≠ backslash) {s : Bytes}
    (h : Body quote [] s) : literalLength? quote s = some s.length := by
  obtain ⟨k, hlength, heq⟩ := h.literalLength?_append hquote
  have := heq []
  simpa [literalLength?, hlength] using this

/-- A backslash at the very end leaves no literal. -/
theorem Body.dangling {quote : UInt8} (hquote : quote ≠ backslash) {s : Bytes}
    (h : Body quote [backslash] s) : literalLength? quote s = none := by
  obtain ⟨k, hlength, heq⟩ := h.literalLength?_append hquote
  have := heq []
  simpa [literalLength?, hquote.symm] using this

/-- The bytes after a quote are closed, run to the end, or end in a backslash. -/
theorem body_cases (quote : UInt8) (s : Bytes) :
    (∃ c rest, s = c ++ rest ∧ Body quote [quote] c) ∨ Body quote [] s ∨
      Body quote [backslash] s := by
  fun_induction literalLength? quote s with
  | case1 => exact .inr (.inl .last)
  | case2 => exact .inl ⟨[quote], [], rfl, .last⟩
  | case3 => exact .inr (.inr .last)
  | case4 b hb hescape => exact .inr (.inl (.plain hb hescape .last))
  | case5 c rest => exact .inl ⟨[quote], c :: rest, rfl, .last⟩
  | case6 c rest hb ih =>
    rcases ih with ⟨d, more, rfl, h⟩ | h | h
    · exact .inl ⟨backslash :: c :: d, more, rfl, .escaped c h⟩
    · exact .inr (.inl (.escaped c h))
    · exact .inr (.inr (.escaped c h))
  | case7 b c rest hb hescape ih =>
    rcases ih with ⟨d, more, heq, h⟩ | h | h
    · exact .inl ⟨b :: d, more, by rw [heq, List.cons_append], .plain hb hescape h⟩
    · exact .inr (.inl (.plain hb hescape h))
    · exact .inr (.inr (.plain hb hescape h))

/-- The length of a literal, if it is one: closed, or all that is left. -/
theorem literalLength?_eq_some {quote : UInt8} (hquote : quote ≠ backslash) {s : Bytes} {n : Nat}
    (h : literalLength? quote s = some n) :
    Body quote [quote] (s.take n) ∨ (n = s.length ∧ Body quote [] s) := by
  rcases body_cases quote s with ⟨c, rest, rfl, hbody⟩ | hbody | hbody
  · have hn : c.length = n := by
      rw [hbody.closed hquote] at h
      exact Option.some.inj h
    rw [← hn, List.take_left]
    exact .inl hbody
  · rw [hbody.unclosed hquote] at h
    exact .inr ⟨(Option.some.inj h).symm, hbody⟩
  · rw [hbody.dangling hquote] at h
    cases h

theorem literalLength?_eq_none {quote : UInt8} (hquote : quote ≠ backslash) {s : Bytes} :
    literalLength? quote s = none ↔ Body quote [backslash] s := by
  refine ⟨fun h => ?_, Body.dangling hquote⟩
  rcases body_cases quote s with ⟨c, rest, rfl, hbody⟩ | hbody | hbody
  · rw [hbody.closed hquote] at h
    cases h
  · rw [hbody.unclosed hquote] at h
    cases h
  · exact hbody

theorem blockLength_le (s : Bytes) : blockLength s ≤ s.length := by
  induction s with
  | nil => exact Nat.le_refl 0
  | cons b s ih =>
    rw [blockLength]
    split_ifs with hclose
    · obtain ⟨more, rfl⟩ := List.head?_eq_some_iff.mp hclose.2
      simp only [List.length_cons]
      omega
    · exact Nat.succ_le_succ ih

/-- Letting other bytes follow a block comment leaves it as it is. If it ran to
the end of the source, nothing may follow. -/
theorem blockLength_take_append (s rest : Bytes)
    (hrest : s.drop (blockLength s) = [] → rest = []) :
    blockLength (s.take (blockLength s) ++ rest) = blockLength s := by
  induction s with
  | nil =>
    rw [hrest rfl]
    rfl
  | cons b s ih =>
    by_cases hclose : b = star ∧ s.head? = some slash
    · obtain ⟨rfl, hhead⟩ := hclose
      obtain ⟨more, rfl⟩ := List.head?_eq_some_iff.mp hhead
      rfl
    · have hlength : blockLength (b :: s) = blockLength s + 1 := by
        rw [blockLength, if_neg hclose]
      rw [hlength, List.drop_succ_cons] at hrest
      rw [hlength, List.take_succ_cons, List.cons_append, blockLength, if_neg, ih hrest]
      rintro ⟨hb, hhead⟩
      cases s with
      | nil => simp [blockLength, hrest rfl] at hhead
      | cons c s =>
        have hpos : ∃ k, blockLength (c :: s) = k + 1 := by
          rw [blockLength]
          split_ifs
          · exact ⟨1, rfl⟩
          · exact ⟨_, rfl⟩
        obtain ⟨k, hk⟩ := hpos
        rw [hk, List.take_succ_cons] at hhead
        exact hclose ⟨hb, hhead⟩

/-- A run of bytes of a class ends where the class ends. -/
theorem takeWhile_append_stop {p : UInt8 → Bool} {s rest : Bytes} (hs : ∀ b ∈ s, p b = true)
    (hrest : rest.head?.any p = false) : (s ++ rest).takeWhile p = s := by
  rw [List.takeWhile_append_of_pos hs]
  cases rest with
  | nil => simp
  | cons c rest =>
    rw [List.takeWhile_cons_of_neg (by simpa using hrest), List.append_nil]

/-- What follows a longest run does not belong to it. -/
theorem head?_drop_takeWhile (p : UInt8 → Bool) (s : Bytes) :
    (s.drop (s.takeWhile p).length).head?.any p = false := by
  induction s with
  | nil => rfl
  | cons b s ih =>
    by_cases hb : p b = true
    · rw [List.takeWhile_cons_of_pos hb, List.length_cons, List.drop_succ_cons]
      exact ih
    · rw [List.takeWhile_cons_of_neg hb]
      simpa using hb

end RenameServer.Lexeme
