import Mathlib.Tactic.SplitIfs
import RenameServer.Proofs.Cursor
import RenameServer.Proofs.Strategies

/-!
Which token a cursor is on, wherever it stands. The tokens of a source are apart,
so at most one of them holds an offset and at most one ends there. Of a kind the
token that holds the offset is found, else the one that ends there. Two variables
can touch each other; an identifier touches no variable before it.
-/
namespace RenameServer.Token

open Utf8 (Bytes)
open Respelling

/-- The token of a kind that a cursor is on: it holds the cursor, or it ends there
and no token of the kind holds the cursor. -/
structure Under (tokens : List Token) (offset : Int) (kind : Kind) (t : Token) : Prop where
  mem : t ∈ tokens
  kind_eq : t.kind = kind
  place : t.contains offset = true ∨
    ((t.stop : Int) = offset ∧ ∀ u ∈ tokens, u.kind = kind → u.contains offset = false)

section Lookup

variable {t : Token} {tokens : List Token} {offset : Int} {kind : Kind}

theorem at?_cons_of_ne (h : t.kind ≠ kind) :
    at? (t :: tokens) offset kind = at? tokens offset kind := by
  simp [at?, h]

theorem at?_cons_of_contains (h : t.kind = kind) (hholds : t.contains offset = true) :
    at? (t :: tokens) offset kind = some t := by
  simp [at?, h, hholds]

theorem at?_cons_of_not_contains (h : t.kind = kind) (hholds : ¬ t.contains offset = true) :
    at? (t :: tokens) offset kind =
      (at? tokens offset kind).or (if (t.stop : Int) = offset then some t else none) := by
  have hfind : ∀ candidates : List Token, (t :: candidates).find? (fun u => u.contains offset) =
      candidates.find? fun u => u.contains offset := fun _ => List.find?_cons_of_neg hholds
  rw [at?, at?, List.filter_cons_of_pos (by simpa using h), hfind]
  split
  · rfl
  · by_cases hstop : (t.stop : Int) = offset
    · rw [List.filter_cons_of_pos (by simpa using hstop), List.getLast?_cons, if_pos hstop]
      cases List.getLast? _ <;> rfl
    · rw [List.filter_cons_of_neg (by simpa using hstop), if_neg hstop, Option.or_none]

/-- One pass over tokens: it stops at one that holds the cursor, and remembers the
last one that ended there. -/
def seek (offset : Int) (kind : Kind) (touching : Option Token) : List Token → Option Token
  | [] => touching
  | t :: rest =>
    if t.kind = kind then
      if t.contains offset then some t
      else if (t.stop : Int) = offset then seek offset kind (some t) rest
      else seek offset kind touching rest
    else seek offset kind touching rest

/-- What the pass remembers counts only if nothing that is left holds the cursor or
ends there. -/
theorem seek_eq (touching : Option Token) :
    seek offset kind touching tokens = (at? tokens offset kind).or touching := by
  induction tokens generalizing touching with
  | nil => rfl
  | cons t rest ih =>
    rw [seek]
    split_ifs with hkind hholds hstop
    · rw [at?_cons_of_contains hkind hholds, Option.some_or]
    · rw [at?_cons_of_not_contains hkind hholds, if_pos hstop, ih, Option.or_assoc, Option.some_or]
    · rw [at?_cons_of_not_contains hkind hholds, if_neg hstop, ih, Option.or_none]
    · rw [at?_cons_of_ne hkind, ih]

theorem at?_eq_none_iff :
    at? tokens offset kind = none ↔
      ∀ t ∈ tokens, t.kind = kind → t.contains offset = false ∧ (t.stop : Int) ≠ offset := by
  induction tokens with
  | nil => simp [at?]
  | cons t rest ih =>
    rw [List.forall_mem_cons, ← ih]
    by_cases hkind : t.kind = kind
    · by_cases hholds : t.contains offset = true
      · rw [at?_cons_of_contains hkind hholds]
        simp [hkind, hholds]
      · rw [at?_cons_of_not_contains hkind hholds, Option.or_eq_none_iff, and_comm]
        simp [hkind, hholds]
    · rw [at?_cons_of_ne hkind]
      simp [hkind]

theorem under_of_at? (h : at? tokens offset kind = some t) : Under tokens offset kind t := by
  obtain ⟨hkind, hmem⟩ := Strategy.kind_of_at? h
  refine ⟨hmem, hkind, ?_⟩
  rw [at?] at h
  split at h
  · next hfind =>
    obtain rfl := Option.some.inj h
    exact .inl (List.find?_some (p := fun u : Token => u.contains offset) hfind)
  · next hnone =>
    have hstop := (List.mem_filter.mp (List.mem_of_getLast? h)).2
    refine .inr ⟨of_decide_eq_true hstop, fun u hu hukind => ?_⟩
    refine Bool.eq_false_iff.mpr (List.find?_eq_none.mp hnone u ?_)
    exact List.mem_filter.mpr ⟨hu, decide_eq_true hukind⟩

end Lookup

section Apart

variable {base limit : Nat} {tokens : List Token} {t u : Token} {offset : Int} {kind : Kind}

/-- At most one of the tokens that are apart ends at an offset. -/
theorem eq_of_stop_eq (h : Apart base limit tokens) (ht : t ∈ tokens) (hu : u ∈ tokens)
    (hstop : t.stop = u.stop) : t = u := by
  have htbounds := h.bounds t ht
  have hubounds := h.bounds u hu
  rcases stop_le_or_eq h ht hu with hle | hle | heq
  · omega
  · omega
  · exact heq

theorem Under.unique (h : Apart base limit tokens) (ht : Under tokens offset kind t)
    (hu : Under tokens offset kind u) : t = u := by
  rcases ht.place with hholds | ⟨hstop, hnone⟩
  · rcases hu.place with huholds | ⟨-, hunone⟩
    · exact eq_of_contains h ht.mem hu.mem hholds huholds
    · rw [hunone t ht.mem ht.kind_eq] at hholds
      cases hholds
  · rcases hu.place with huholds | ⟨hustop, -⟩
    · rw [hnone u hu.mem hu.kind_eq] at huholds
      cases huholds
    · exact eq_of_stop_eq h ht.mem hu.mem (by omega)

/-- Being under the cursor and being found there are the same. -/
theorem at?_eq_some_iff (h : Apart base limit tokens) :
    at? tokens offset kind = some t ↔ Under tokens offset kind t := by
  refine ⟨under_of_at?, fun ht => ?_⟩
  cases hat : at? tokens offset kind with
  | none =>
    obtain ⟨hholds, hstop⟩ := at?_eq_none_iff.mp hat t ht.mem ht.kind_eq
    rcases ht.place with hplace | hplace
    · rw [hholds] at hplace
      cases hplace
    · exact absurd hplace.1 hstop
  | some u => rw [(under_of_at? hat).unique h ht]

end Apart

/-- A cursor that an identifier holds is neither in a variable nor at its end. -/
theorem apart_of_identifier {source : Bytes} {t u : Token} {offset : Int} (ht : t ∈ scan source)
    (hkind : t.kind = .identifier) (hholds : t.contains offset = true) (hu : u ∈ scan source)
    (hukind : u.kind = .variable) : u.contains offset = false ∧ (u.stop : Int) ≠ offset := by
  have hne : t ≠ u := by
    rintro rfl
    exact absurd (hkind.symm.trans hukind) (by decide)
  refine ⟨Bool.eq_false_iff.mpr fun huholds => ?_, fun hustop => ?_⟩
  · exact hne (eq_of_contains (apart_scan source) ht hu hholds huholds)
  · have hubounds := (apart_scan source).bounds u hu
    have htouch := stop_ne_start hu ht hukind hkind
    simp only [contains, decide_eq_true_eq] at hholds
    rcases stop_le_or_eq (apart_scan source) ht hu with hle | hle | heq
    · omega
    · omega
    · exact hne heq

/-- Wherever the cursor stands in a source, at most one token holds it and at most one
ends there. Of the tokens of a kind one pass finds the one that holds the cursor, else
the one that ends there, else none. Where an identifier is found that holds the
cursor, no variable holds it or ends there. -/
theorem at?_scan_picks (source : Bytes) (offset : Int) (kind : Kind) :
    let tokens := scan source
    (∀ t ∈ tokens, ∀ u ∈ tokens, t.contains offset = true → u.contains offset = true → t = u) ∧
      (∀ t ∈ tokens, ∀ u ∈ tokens, (t.stop : Int) = offset → (u.stop : Int) = offset → t = u) ∧
      (∀ t, at? tokens offset kind = some t ↔ Under tokens offset kind t) ∧
      (at? tokens offset kind = none ↔
        ∀ t ∈ tokens, t.kind = kind → t.contains offset = false ∧ (t.stop : Int) ≠ offset) ∧
      at? tokens offset kind = seek offset kind none tokens ∧
      ∀ t, at? tokens offset .identifier = some t → t.contains offset = true →
        ∀ u ∈ tokens, u.kind = .variable →
          u.contains offset = false ∧ (u.stop : Int) ≠ offset := by
  intro tokens
  have h : Apart 0 source.length tokens := apart_scan source
  refine ⟨fun t ht u hu => eq_of_contains h ht hu, fun t ht u hu hstop hustop => ?_,
    fun t => at?_eq_some_iff h, at?_eq_none_iff, ?_, fun t hat hholds u hu hukind => ?_⟩
  · exact eq_of_stop_eq h ht hu (by omega)
  · rw [seek_eq, Option.or_none]
  · obtain ⟨hkind, hmem⟩ := Strategy.kind_of_at? hat
    exact apart_of_identifier hmem hkind hholds hu hukind

/-- Two variables that touch: at the place between them the second one is found, and
at its end it is found as well. The identifier behind them is not touched by it. -/
theorem at?_scan_picks_touching :
    let source := Utf8.encode "$a$b f"
    let first : Token := ⟨.variable, 0, Utf8.encode "$a"⟩
    let second : Token := ⟨.variable, 2, Utf8.encode "$b"⟩
    let word : Token := ⟨.identifier, 5, Utf8.encode "f"⟩
    scan source = [first, second, word] ∧ (first.stop : Int) = 2 ∧
      at? (scan source) 2 .variable = some second ∧ at? (scan source) 4 .variable = some second ∧
      at? (scan source) 5 .identifier = some word ∧
      second.contains 5 = false ∧ (second.stop : Int) ≠ 5 := by
  intro source first second word
  have hscan : scan source = [first, second, word] := by decide +kernel
  have hsecond : second ∈ scan source := by
    rw [hscan]
    simp
  have hholds : Under (scan source) 2 .variable second := ⟨hsecond, rfl, .inl (by decide +kernel)⟩
  have hends : Under (scan source) 4 .variable second :=
    ⟨hsecond, rfl, .inr (by rw [hscan]; decide +kernel)⟩
  have hword : Under (scan source) 5 .identifier word :=
    ⟨by rw [hscan]; simp, rfl, .inl (by decide +kernel)⟩
  obtain ⟨-, -, hbetween, -⟩ := at?_scan_picks source 2 .variable
  obtain ⟨-, -, hend, -⟩ := at?_scan_picks source 4 .variable
  obtain ⟨-, -, hfound, -, -, hvariables⟩ := at?_scan_picks source 5 .identifier
  have hat := (hfound word).mpr hword
  exact ⟨hscan, by decide +kernel, (hbetween second).mpr hholds, (hend second).mpr hends, hat,
    hvariables word hat (by decide +kernel) second hsecond rfl⟩

end RenameServer.Token
