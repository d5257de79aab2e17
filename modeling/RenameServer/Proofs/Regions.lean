import RenameServer.Proofs.Interpolation

/-!
Comments and quoted literals as regions of a source. They are found by a scan of their own that
knows nothing of names: it goes from left to right and looks for what opens a region and for what
closes it. The lexemes stay in step with it up to a literal that is not closed and ends with the
first half of a pair. Such a literal is a region, and the lexemes go on behind its quote as if it
was not there.
-/
namespace RenameServer

open Utf8 (Bytes)
open Lexeme

namespace Lexeme

theorem literalLength?_le {quote : UInt8} {s : Bytes} {n : Nat}
    (h : literalLength? quote s = some n) : n ≤ s.length := by
  fun_induction literalLength? quote s generalizing n with
  | case1 => simp_all
  | case2 => simp_all
  | case3 => cases h
  | case4 => simp_all
  | case5 c rest => simp_all
  | case6 c rest hb ih =>
    obtain ⟨k, hk, rfl⟩ := Option.map_eq_some_iff.mp h
    exact Nat.succ_le_succ (Nat.succ_le_succ (ih hk))
  | case7 b c rest hb hescape ih =>
    obtain ⟨k, hk, rfl⟩ := Option.map_eq_some_iff.mp h
    exact Nat.succ_le_succ (ih hk)

/-- A lexeme ends within the source. -/
theorem Starts.le {b : UInt8} {rest : Bytes} {kind : Kind} {n : Nat} (h : Starts b rest kind n) :
    n ≤ rest.length := by
  have hrun : ∀ (p : UInt8 → Bool) (s : Bytes), (s.takeWhile p).length ≤ s.length :=
    fun p s => (List.takeWhile_prefix p).length_le
  cases h with
  | line rest => exact Nat.succ_le_succ (hrun _ rest)
  | block rest => exact Nat.succ_le_succ (blockLength_le rest)
  | hash => exact hrun _ rest
  | single h => exact literalLength?_le h
  | double h => exact literalLength?_le h
  | «variable» => exact hrun _ rest
  | identifier => exact hrun _ rest
  | static | arrow => exact Nat.succ_le_succ (Nat.zero_le _)
  | mark | other => exact Nat.zero_le _

end Lexeme

inductive Region.Kind where
  | comment
  | single
  | double
  deriving Repr, DecidableEq

structure Region where
  kind : Region.Kind
  start : Nat
  stop : Nat
  deriving Repr, DecidableEq

namespace Region

/-! ### The scan -/

/-- The bytes of a block comment through its closing mark, or all bytes if there is none. The
flag tells whether the byte before is a star. -/
def throughMark (afterStar : Bool) : Bytes → Nat
  | [] => 0
  | b :: rest => if afterStar ∧ b = slash then 1 else throughMark (b = star) rest + 1

/-- The bytes of a literal through its closing quote, or all bytes if there is none. The flag
tells whether the next byte is the second one of a pair. -/
def throughQuote (quote : UInt8) (second : Bool) : Bytes → Nat
  | [] => 0
  | b :: rest =>
    if ¬second ∧ b = quote then 1
    else throughQuote quote (¬second ∧ b = backslash) rest + 1

/-- The region that opens with `b`, and how many bytes of `rest` belong to it. -/
def opened? (b : UInt8) (rest : Bytes) : Option (Kind × Nat) :=
  if b = hash ∨ (b = slash ∧ rest.head? = some slash) then
    some (.comment, rest.findIdx fun c => c = carriageReturn ∨ c = lineFeed)
  else if b = slash ∧ rest.head? = some star then some (.comment, throughMark false rest.tail + 1)
  else if b = singleQuote then some (.single, throughQuote singleQuote false rest)
  else if b = doubleQuote then some (.double, throughQuote doubleQuote false rest)
  else none

/-- The regions of a source that starts at `start`. -/
def scanFrom (start : Nat) : Bytes → List Region
  | [] => []
  | b :: rest =>
    match opened? b rest with
    | none => scanFrom (start + 1) rest
    | some (kind, n) => ⟨kind, start, start + 1 + n⟩ :: scanFrom (start + 1 + n) (rest.drop n)
termination_by source => source.length
decreasing_by
  · simp
  · simp only [List.length_drop, List.length_cons]
    omega

def scan (source : Bytes) : List Region := scanFrom 0 source

def Overlaps (r : Region) (t : Token) : Prop := t.start < r.stop ∧ r.start < t.stop

/-- Only variables in a double-quoted literal may be renamed. -/
def Kind.Bars (kind : Kind) (token : Token.Kind) : Prop := ¬(kind = .double ∧ token = .variable)

/-- A quote whose literal is not closed and ends with the first half of a pair. -/
def Dangles (kind : Kind) (b : UInt8) (rest : Bytes) : Prop :=
  (kind = .single ∧ b = singleQuote ∨ kind = .double ∧ b = doubleQuote) ∧ Body b [backslash] rest

/-! ### The ends of regions -/

theorem findIdx_lineEnd (s : Bytes) :
    (s.findIdx fun c => c = carriageReturn ∨ c = lineFeed) = lineLength s := by
  induction s with
  | nil => rfl
  | cons b s ih =>
    rw [lineLength] at ih ⊢
    by_cases hb : b = carriageReturn ∨ b = lineFeed
    · rw [List.findIdx_cons, List.takeWhile_cons_of_neg (by simpa [or_iff_not_imp_left] using hb)]
      simp [hb]
    · rw [List.findIdx_cons, List.takeWhile_cons_of_pos (by simpa using hb), List.length_cons, ← ih]
      simp [hb]

theorem throughMark_true {s : Bytes} (h : s.head? ≠ some slash) :
    throughMark true s = throughMark false s := by
  cases s with
  | nil => rfl
  | cons b s =>
    have hb : b ≠ slash := fun hb => h (congrArg some hb)
    simp [throughMark, hb]

theorem throughMark_false (s : Bytes) : throughMark false s = blockLength s := by
  induction s with
  | nil => rfl
  | cons b s ih =>
    have hfalse : throughMark false (b :: s) = throughMark (b = star) s + 1 := by
      simp [throughMark]
    rw [hfalse, blockLength]
    by_cases hclose : b = star ∧ s.head? = some slash
    · obtain ⟨rfl, hhead⟩ := hclose
      obtain ⟨more, rfl⟩ := List.head?_eq_some_iff.mp hhead
      rfl
    · rw [if_neg hclose, ← ih]
      by_cases hb : b = star
      · rw [decide_eq_true hb, throughMark_true fun hhead => hclose ⟨hb, hhead⟩]
      · rw [decide_eq_false hb]

/-- The pairs of a literal are those of its bytes one by one. -/
theorem throughQuote_false {quote : UInt8} (hquote : quote ≠ backslash) (s : Bytes) :
    throughQuote quote false s = (literalLength? quote s).getD s.length := by
  fun_induction literalLength? quote s with
  | case1 => rfl
  | case2 => simp [throughQuote]
  | case3 => simp [throughQuote, hquote.symm]
  | case4 b hb hescape => simp [throughQuote, hb]
  | case5 c rest => simp [throughQuote]
  | case6 c rest hb ih =>
    have hpair : throughQuote quote false (backslash :: c :: rest) =
        throughQuote quote false rest + 2 := by
      simp [throughQuote, hquote.symm]
    rw [hpair, ih]
    cases literalLength? quote rest <;> rfl
  | case7 b c rest hb hescape ih =>
    have hplain : throughQuote quote false (b :: c :: rest) =
        throughQuote quote false (c :: rest) + 1 := by
      rw [throughQuote]
      simp [hb, hescape]
    rw [hplain, ih]
    cases literalLength? quote (c :: rest) <;> rfl

/-! ### Regions and lexemes -/

/-- The region that a lexeme is as a whole. -/
def ofLexeme (start : Nat) (l : Lexeme) : List Region :=
  match l.kind with
  | .comment => [⟨.comment, start, start + l.bytes.length⟩]
  | .single => [⟨.single, start, start + l.bytes.length⟩]
  | .double => [⟨.double, start, start + l.bytes.length⟩]
  | .variable | .identifier | .punct | .other => []

/-- The regions of lexemes of which the first starts at `start`. -/
def ofLexemes (start : Nat) (ls : List Lexeme) : List Region := collect ofLexeme start ls

theorem ofLexemes_cons (start : Nat) (l : Lexeme) (ls : List Lexeme) :
    ofLexemes start (l :: ls) = ofLexeme start l ++ ofLexemes (start + l.bytes.length) ls := rfl

variable {kind : Kind} {b : UInt8} {rest : Bytes}

theorem opened?_plain (hhash : b ≠ hash) (hslash : b ≠ slash) (hsingle : b ≠ singleQuote)
    (hdouble : b ≠ doubleQuote) (rest : Bytes) : opened? b rest = none := by
  simp [opened?, hhash, hslash, hsingle, hdouble]

/-- A name opens no region, and neither does any byte in it. -/
theorem opened?_name (hb : isNameByte b = true) (rest : Bytes) : opened? b rest = none :=
  opened?_plain (ne_of_isNameByte hb (by decide)) (ne_of_isNameByte hb (by decide))
    (ne_of_isNameByte hb (by decide)) (ne_of_isNameByte hb (by decide)) rest

theorem opened?_single (rest : Bytes) : opened? singleQuote rest =
    some (.single, (literalLength? singleQuote rest).getD rest.length) := by
  rw [← throughQuote_false (by decide)]
  rfl

theorem opened?_double (rest : Bytes) : opened? doubleQuote rest =
    some (.double, (literalLength? doubleQuote rest).getD rest.length) := by
  rw [← throughQuote_false (by decide)]
  rfl

/-- The region of a quote that dangles has all that is left of the source. -/
theorem opened?_of_dangles (h : Dangles kind b rest) :
    opened? b rest = some (kind, rest.length) := by
  obtain ⟨⟨rfl, rfl⟩ | ⟨rfl, rfl⟩, hbody⟩ := h
  · rw [opened?_single, hbody.dangling (by decide)]
    rfl
  · rw [opened?_double, hbody.dangling (by decide)]
    rfl

/-- For the lexemes such a quote is a byte like any other. -/
theorem starts_of_dangles (h : Dangles kind b rest) : Starts b rest .other 0 := by
  obtain ⟨⟨rfl, rfl⟩ | ⟨rfl, rfl⟩, hbody⟩ := h
  · exact .other { single_dangling := fun _ => hbody.dangling (by decide) }
  · exact .other { double_dangling := fun _ => hbody.dangling (by decide) }

theorem cut_of_dangles (h : Dangles kind b rest) : cut (b :: rest) = ⟨.other, [b]⟩ :: cut rest :=
  @cut_of_starts b [] rest _ _ (starts_of_dangles h) rfl

theorem scanFrom_none (h : opened? b rest = none) (start : Nat) :
    scanFrom start (b :: rest) = scanFrom (start + 1) rest := by
  rw [scanFrom, h]

theorem scanFrom_some {n : Nat} (h : opened? b rest = some (kind, n)) (start : Nat) :
    scanFrom start (b :: rest) =
      ⟨kind, start, start + 1 + n⟩ :: scanFrom (start + 1 + n) (rest.drop n) := by
  rw [scanFrom, h]

theorem scanFrom_append {p : Bytes} (hp : ∀ b ∈ p, ∀ rest, opened? b rest = none) (start : Nat)
    (rest : Bytes) : scanFrom start (p ++ rest) = scanFrom (start + p.length) rest := by
  induction p generalizing start with
  | nil => rfl
  | cons b p ih =>
    obtain ⟨hb, hp⟩ := List.forall_mem_cons.mp hp
    rw [List.cons_append, scanFrom_none (hb _), ih hp, List.length_cons, Nat.add_assoc,
      Nat.add_comm 1]

/-- A lexeme that opens a region is the region. -/
theorem opened?_of_starts {lexeme : Lexeme.Kind} {n : Nat} (h : Starts b rest lexeme n)
    (hdangles : ∀ kind, ¬Dangles kind b rest) :
    (∃ kind, opened? b rest = some (kind, n) ∧ ∀ start,
        ofLexeme start ⟨lexeme, b :: rest.take n⟩ =
          [⟨kind, start, start + (b :: rest.take n).length⟩]) ∨
      opened? b rest = none ∧ (∀ c ∈ rest.take n, ∀ more, opened? c more = none) ∧
        ∀ start, ofLexeme start ⟨lexeme, b :: rest.take n⟩ = [] := by
  have hname : ∀ c ∈ rest.take (nameLength rest), ∀ more, opened? c more = none := by
    intro c hc
    rw [nameLength, take_length_takeWhile] at hc
    exact opened?_name (List.mem_takeWhile_imp hc)
  have hnone : ∀ c ∈ ([] : Bytes), ∀ more, opened? c more = none := List.forall_mem_nil _
  cases h with
  | line rest =>
    refine .inl ⟨.comment, ?_, fun _ => rfl⟩
    have hlength : lineLength (slash :: rest) = lineLength rest + 1 := rfl
    rw [opened?, if_pos (.inr ⟨rfl, rfl⟩), findIdx_lineEnd, hlength]
  | block rest =>
    refine .inl ⟨.comment, ?_, fun _ => rfl⟩
    rw [← throughMark_false]
    rfl
  | hash =>
    refine .inl ⟨.comment, ?_, fun _ => rfl⟩
    rw [opened?, if_pos (.inl rfl), findIdx_lineEnd]
  | single h => exact .inl ⟨.single, by rw [opened?_single, h]; rfl, fun _ => rfl⟩
  | double h => exact .inl ⟨.double, by rw [opened?_double, h]; rfl, fun _ => rfl⟩
  | «variable» h => exact .inr ⟨rfl, hname, fun _ => rfl⟩
  | identifier rest h =>
    exact .inr ⟨opened?_name (isNameByte_of_isNameStart h) rest, hname, fun _ => rfl⟩
  | static rest => exact .inr ⟨rfl, List.forall_mem_singleton.mpr fun _ => rfl, fun _ => rfl⟩
  | arrow rest => exact .inr ⟨rfl, List.forall_mem_singleton.mpr fun _ => rfl, fun _ => rfl⟩
  | mark rest h =>
    refine .inr ⟨?_, hnone, fun _ => rfl⟩
    rcases h with rfl | rfl | rfl <;> rfl
  | other h =>
    -- A quote among the bytes of no interest dangles, which is excluded here.
    refine .inr ⟨?_, hnone, fun _ => rfl⟩
    have hsingle : b ≠ singleQuote := by
      rintro rfl
      exact hdangles .single
        ⟨.inl ⟨rfl, rfl⟩, (literalLength?_eq_none (by decide)).mp (h.single_dangling rfl)⟩
    have hdouble : b ≠ doubleQuote := by
      rintro rfl
      exact hdangles .double
        ⟨.inr ⟨rfl, rfl⟩, (literalLength?_eq_none (by decide)).mp (h.double_dangling rfl)⟩
    by_cases hslash : b = slash
    · have halone := h.slash_alone hslash
      simp [opened?, h.not_hash, hsingle, hdouble, halone]
    · exact opened?_plain h.not_hash hslash hsingle hdouble rest

/-- One step of the two scans together. -/
theorem scanFrom_of_starts {lexeme : Lexeme.Kind} {n : Nat} (h : Starts b rest lexeme n)
    (hdangles : ∀ kind, ¬Dangles kind b rest) (start : Nat) :
    let l : Lexeme := ⟨lexeme, b :: rest.take n⟩
    scanFrom start (b :: rest) =
      ofLexeme start l ++ scanFrom (start + l.bytes.length) (rest.drop n) := by
  intro l
  have hlength : start + l.bytes.length = start + 1 + n := by
    rw [List.length_cons, List.length_take_of_le h.le, Nat.add_assoc, Nat.add_comm 1]
  rcases opened?_of_starts h hdangles with ⟨kind, hopened, hregion⟩ | ⟨hopened, hinside, hregion⟩
  · rw [scanFrom_some hopened, hregion, hlength]
    rfl
  · have hskip := scanFrom_append hinside (start + 1) (rest.drop n)
    rw [List.take_append_drop, List.length_take_of_le h.le] at hskip
    rw [scanFrom_none hopened, hskip, hregion, hlength]
    rfl

/-- The two scans stay in step, up to a quote that dangles. -/
theorem scanFrom_cut (start : Nat) (source : Bytes) :
    scanFrom start source = ofLexemes start (cut source) ∨
      ∃ before kind b rest, Dangles kind b rest ∧ cut source = before ++ ⟨.other, [b]⟩ :: cut rest ∧
        let place := start + (before.flatMap Lexeme.bytes).length
        scanFrom start source =
          ofLexemes start before ++ [⟨kind, place, place + 1 + rest.length⟩] := by
  induction source using cut.induct generalizing start with
  | case1 => exact .inl (by rw [scanFrom, cut]; rfl)
  | case2 b rest e ih =>
    by_cases hdangles : ∃ kind, Dangles kind b rest
    · -- The region takes all that is left, so the regions end here and the lexemes go on.
      obtain ⟨kind, hdangles⟩ := hdangles
      refine .inr ⟨[], kind, b, rest, hdangles, cut_of_dangles hdangles, ?_⟩
      rw [scanFrom_some (opened?_of_dangles hdangles), List.drop_length, scanFrom]
      rfl
    · have hcut : cut (b :: rest) = ⟨e.1, b :: rest.take e.2⟩ :: cut (rest.drop e.2) := by
        rw [cut]
      have hstep := scanFrom_of_starts (starts_extent b rest) (not_exists.mp hdangles) start
      rcases ih (start + (b :: rest.take e.2).length) with
        hrest | ⟨before, kind, b', rest', hdangles', hcut', hrest⟩
      · exact .inl (by rw [hcut, ofLexemes_cons, ← hrest]; exact hstep)
      · refine .inr ⟨⟨e.1, b :: rest.take e.2⟩ :: before, kind, b', rest', hdangles', ?_, ?_⟩
        · rw [hcut, hcut']
          rfl
        · intro place
          have hplace : start + (b :: rest.take e.2).length + (before.flatMap Lexeme.bytes).length =
              place := by
            simp only [place, List.flatMap_cons, List.length_append, Nat.add_assoc]
          rw [ofLexemes_cons, List.append_assoc, ← hplace]
          exact hstep.trans (congrArg _ hrest)

/-! ### Regions and tokens -/

section Tokens

variable {r : Region} {t : Token} {start : Nat}

theorem bounds_of_mem_ofLexeme {l : Lexeme} (h : r ∈ ofLexeme start l) :
    r.start = start ∧ r.stop = start + l.bytes.length := by
  obtain ⟨kind, bytes⟩ := l
  cases kind with
  | comment | single | double => rw [List.mem_singleton.mp h]; exact ⟨rfl, rfl⟩
  | «variable» | identifier | punct | other => cases h

theorem bounds_of_mem_ofLexemes {ls : List Lexeme} (h : r ∈ ofLexemes start ls) :
    start ≤ r.start ∧ r.stop ≤ start + (ls.flatMap Lexeme.bytes).length := by
  obtain ⟨before, l, after, rfl, hl⟩ := exists_of_mem_collect h
  obtain ⟨hstart, hstop⟩ := bounds_of_mem_ofLexeme hl
  simp only [List.flatMap_append, List.flatMap_cons, List.length_append]
  omega

/-- A region that is a lexeme has at most the variables of a double-quoted literal in it. -/
theorem not_bars_of_mem_ofLexeme {l : Lexeme} (hr : r ∈ ofLexeme start l)
    (ht : t ∈ Token.ofLexeme start l) : ¬r.kind.Bars t.kind := by
  obtain ⟨kind, bytes⟩ := l
  cases kind with
  | comment | single | other => cases ht
  | double =>
    rw [List.mem_singleton.mp hr]
    exact not_not_intro ⟨rfl, Token.kind_of_mem_interpolated ht⟩
  | «variable» | identifier | punct => cases hr

/-- What is barred from the regions of lexemes is outside of them. -/
theorem not_overlaps_of_mem_ofLexemes {ls : List Lexeme} (hr : r ∈ ofLexemes start ls)
    (ht : t ∈ Token.ofLexemes start ls) (hbars : r.kind.Bars t.kind) : ¬r.Overlaps t := by
  induction ls generalizing start with
  | nil => cases hr
  | cons l ls ih =>
    rcases List.mem_append.mp hr with hr | hr <;> rcases List.mem_append.mp ht with ht | ht
    · exact absurd hbars (not_bars_of_mem_ofLexeme hr ht)
    · have hstop := (bounds_of_mem_ofLexeme hr).2
      have hstart := (Token.bounds_of_mem_ofLexemes ht).1
      exact fun hover => absurd hover.1 (by omega)
    · have hstart := (bounds_of_mem_ofLexemes hr).1
      have hstop := (Token.bounds_of_mem_ofLexeme ht).2
      exact fun hover => absurd hover.2 (by omega)
    · exact ih hr ht

/-- The region of a quote that dangles. -/
def Dangling (source : Bytes) (r : Region) : Prop :=
  ∃ b, source[r.start]? = some b ∧ Dangles r.kind b (source.drop (r.start + 1))

theorem dangling_at {p rest : Bytes} (hr : r.start = p.length) :
    r.Dangling (p ++ b :: rest) ↔ Dangles r.kind b rest := by
  have hat : (p ++ b :: rest)[r.start]? = some b := by simp [hr]
  have hdrop : (p ++ b :: rest).drop (r.start + 1) = rest := by simp [hr, ← List.drop_drop]
  rw [Dangling, hdrop]
  refine ⟨?_, fun h => ⟨b, hat, h⟩⟩
  rintro ⟨c, hc, h⟩
  rwa [Option.some.inj (hat.symm.trans hc)]

theorem not_dangling_of_mem_ofLexemes {source : Bytes} {before after : List Lexeme}
    (hcut : cut source = before ++ after) (h : r ∈ ofLexemes 0 before) : ¬r.Dangling source := by
  obtain ⟨front, l, back, rfl, hl⟩ := exists_of_mem_collect h
  rw [List.append_assoc] at hcut
  obtain ⟨b, rest, n, hstarts, -, rfl, -⟩ := starts_of_cut hcut
  rw [dangling_at ((bounds_of_mem_ofLexeme hl).1.trans (Nat.zero_add _))]
  intro hdangles
  have hsame := (extent_eq_iff.mpr hstarts).symm.trans
    (extent_eq_iff.mpr (starts_of_dangles hdangles))
  rw [ofLexeme, (Prod.mk.inj hsame).1] at hl
  cases hl

/-- The tokens of what follows the first byte of a region, read as if nothing was open. -/
def behind (source : Bytes) (r : Region) : List Token :=
  Token.ofLexemes (r.start + 1) (cut (source.drop (r.start + 1)))

/-- The lexemes of `source` are in step with its regions up to a last one that dangles. -/
structure OutOfStep (source : Bytes) (before : List Lexeme) (r : Region) : Prop where
  regions : scan source = ofLexemes 0 before ++ [r]
  lexemes : before <+: cut source
  dangling : r.Dangling source
  start : r.start = (before.flatMap Lexeme.bytes).length
  stop : r.stop = source.length
  tokens : Token.scan source = Token.ofLexemes 0 before ++ r.behind source

theorem scan_cases (source : Bytes) :
    scan source = ofLexemes 0 (cut source) ∨ ∃ before r, OutOfStep source before r := by
  rcases scanFrom_cut 0 source with hscan | ⟨before, kind, b, rest, hdangles, hcut, hscan⟩
  · exact .inl hscan
  obtain ⟨b', rest', n, -, hbytes, hsource, -⟩ := starts_of_cut hcut
  obtain ⟨rfl, -⟩ := List.cons.inj hbytes
  have hrest : rest' = rest := by
    rw [← flatMap_bytes_cut source, hcut, List.flatMap_append, List.flatMap_cons,
      flatMap_bytes_cut] at hsource
    exact (List.cons.inj (List.append_cancel_left hsource)).2.symm
  subst hrest
  rw [Nat.zero_add] at hscan
  have hdrop : source.drop ((before.flatMap Lexeme.bytes).length + 1) = rest' := by
    simp [hsource, ← List.drop_drop]
  refine .inr ⟨before, _, hscan, ⟨_, hcut.symm⟩, ?_, rfl, ?_, ?_⟩
  · rw [hsource]
    exact (dangling_at rfl).mpr hdangles
  · simp [hsource, Nat.add_assoc, Nat.add_comm 1]
  · rw [Token.scan, hcut, Token.ofLexemes_append, Nat.zero_add, behind, hdrop]
    rfl

namespace OutOfStep

variable {source : Bytes} {before : List Lexeme}

theorem eq_of_dangling (h : OutOfStep source before r) {q : Region} (hq : q ∈ scan source)
    (hdangling : q.Dangling source) : q = r := by
  rw [h.regions] at hq
  rcases List.mem_append.mp hq with hq | hq
  · obtain ⟨after, hcut⟩ := h.lexemes
    exact absurd hdangling (not_dangling_of_mem_ofLexemes hcut.symm hq)
  · exact List.mem_singleton.mp hq

/-- The last region overlaps all that the lexemes find behind its quote. -/
theorem mem_behind_iff (h : OutOfStep source before r) :
    t ∈ r.behind source ↔ t ∈ Token.scan source ∧ r.Overlaps t := by
  constructor
  · intro ht
    have hmem : t ∈ Token.scan source := by
      rw [h.tokens]
      exact List.mem_append_right _ ht
    have hbounds := (Respelling.apart_scan source).bounds t hmem
    have hstart := (Token.bounds_of_mem_ofLexemes ht).1
    have hstop := h.stop
    exact ⟨hmem, by omega, by omega⟩
  · rintro ⟨ht, hover⟩
    rw [h.tokens] at ht
    rcases List.mem_append.mp ht with ht | ht
    · have hstop := (Token.bounds_of_mem_ofLexemes ht).2
      have hstart := h.start
      exact absurd hover.2 (by omega)
    · exact ht

theorem dangling_of_overlaps (h : OutOfStep source before r) {q : Region} (hq : q ∈ scan source)
    (ht : t ∈ Token.scan source) (hbars : q.kind.Bars t.kind) (hover : q.Overlaps t) :
    q.Dangling source := by
  rw [h.regions] at hq
  rcases List.mem_append.mp hq with hq | hq
  · rw [h.tokens] at ht
    rcases List.mem_append.mp ht with ht | ht
    · exact absurd hover (not_overlaps_of_mem_ofLexemes hq ht hbars)
    · have hstop := (bounds_of_mem_ofLexemes hq).2
      have hplace := h.start
      have hstart := (Token.bounds_of_mem_ofLexemes ht).1
      exact absurd hover.1 (by omega)
  · rw [List.mem_singleton.mp hq]
    exact h.dangling

end OutOfStep

end Tokens

/-- Comments and literals are kept clear of tokens, up to the variables of double-quoted
literals. Only a last literal that dangles is not. It goes to the end of the source, and what it
overlaps is what the source behind its quote has by itself. -/
theorem tokens_keep_out (source : Bytes) :
    (∀ t ∈ Token.scan source, ∀ r ∈ scan source, r.kind.Bars t.kind → r.Overlaps t →
        r.Dangling source) ∧
      (∀ r ∈ scan source, r.Dangling source → r.stop = source.length ∧
        ∀ t, t ∈ Token.scan source ∧ r.Overlaps t ↔ t ∈ r.behind source) ∧
      ((∀ t ∈ Token.scan source, ∀ r ∈ scan source, r.kind.Bars t.kind → ¬r.Overlaps t) ↔
        ∀ r ∈ scan source, r.Dangling source → ∀ t ∈ r.behind source, ¬r.kind.Bars t.kind) := by
  have hmeet : ∀ t ∈ Token.scan source, ∀ r ∈ scan source, r.kind.Bars t.kind → r.Overlaps t →
      r.Dangling source := by
    intro t ht r hr hbars hover
    rcases scan_cases source with hstep | ⟨before, last, hstep⟩
    · rw [hstep] at hr
      exact absurd hover (not_overlaps_of_mem_ofLexemes hr ht hbars)
    · exact hstep.dangling_of_overlaps hr ht hbars hover
  have hbehind : ∀ r ∈ scan source, r.Dangling source → r.stop = source.length ∧
      ∀ t, t ∈ Token.scan source ∧ r.Overlaps t ↔ t ∈ r.behind source := by
    intro r hr hdangling
    rcases scan_cases source with hstep | ⟨before, last, hstep⟩
    · rw [hstep] at hr
      exact absurd hdangling (not_dangling_of_mem_ofLexemes (List.append_nil _).symm hr)
    · obtain rfl := hstep.eq_of_dangling hr hdangling
      exact ⟨hstep.stop, fun t => hstep.mem_behind_iff.symm⟩
  refine ⟨hmeet, hbehind, fun hout r hr hdangling t ht hbars => ?_,
    fun hbars t ht r hr hbar hover => ?_⟩
  · obtain ⟨htoken, hover⟩ := ((hbehind r hr hdangling).2 t).mpr ht
    exact hout t htoken r hr hbars hover
  · have hdangling := hmeet t ht r hr hbar hover
    exact hbars r hr hdangling t (((hbehind r hr hdangling).2 t).mp ⟨ht, hover⟩) hbar

/-- A comment with a name, a literal with a variable and a literal that dangles. -/
theorem tokens_keep_out_literal :
    let source := Utf8.encode "a/*b*/\"$c\" 'd\\"
    let last : Region := ⟨.single, 11, 14⟩
    scan source = [⟨.comment, 1, 6⟩, ⟨.double, 6, 10⟩, last] ∧
      Token.scan source = [⟨.identifier, 0, Utf8.encode "a"⟩, ⟨.variable, 7, Utf8.encode "$c"⟩,
        ⟨.identifier, 12, Utf8.encode "d"⟩] ∧
      last.Dangling source ∧ last.behind source = [⟨.identifier, 12, Utf8.encode "d"⟩] ∧
      ∀ t ∈ Token.scan source, ∀ r ∈ scan source, r.kind.Bars t.kind → r.Overlaps t → r = last := by
  intro source last
  have hregions : scan source = [⟨.comment, 1, 6⟩, ⟨.double, 6, 10⟩, last] := by decide +kernel
  have hlast : last.Dangling source :=
    ⟨singleQuote, by decide +kernel, .inl ⟨rfl, rfl⟩, .plain (by decide) (by decide) .last⟩
  refine ⟨hregions, by decide +kernel, hlast, by decide +kernel, fun t ht r hr hbars hover => ?_⟩
  obtain ⟨hmeet, hbehind, -⟩ := tokens_keep_out source
  have hstop := (hbehind r hr (hmeet t ht r hr hbars hover)).1
  rw [hregions] at hr
  simp only [List.mem_cons, List.not_mem_nil, or_false] at hr
  rcases hr with rfl | rfl | rfl
  · exact absurd hstop (by decide +kernel)
  · exact absurd hstop (by decide +kernel)
  · rfl

/-- A name in a literal that is not closed and ends with a backslash. -/
theorem token_in_literal :
    let source := Utf8.encode "'abc\\"
    let t : Token := ⟨.identifier, 1, Utf8.encode "abc"⟩
    let r : Region := ⟨.single, 0, 5⟩
    Token.scan source = [t] ∧ scan source = [r] ∧ r.kind.Bars t.kind ∧ r.Overlaps t := by
  refine ⟨by decide +kernel, by decide +kernel, by simp [Kind.Bars], by decide, by decide⟩

end Region
end RenameServer
