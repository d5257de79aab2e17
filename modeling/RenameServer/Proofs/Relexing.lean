import RenameServer.Proofs.Lexemes

/-!
Cutting again after names have been exchanged for other names. Two sources are
alike when they differ only in that. Alike sources begin with the same byte or
both with a name, and their quotes are closed, open or dangling together, so
every lexeme ends where it ended before.
-/
namespace RenameServer.Lexeme

open Utf8 (Bytes)

/-- A name as bytes: it starts like a name and goes on with name bytes. -/
def IsName (name : Bytes) : Prop :=
  ∃ b rest, name = b :: rest ∧ isNameStart b = true ∧ ∀ x ∈ rest, isNameByte x = true

theorem isNameByte_of_isNameStart {b : UInt8} (h : isNameStart b = true) : isNameByte b = true := by
  simp [isNameByte, h]

theorem IsName.isNameByte {name : Bytes} (h : IsName name) : ∀ x ∈ name, isNameByte x = true := by
  obtain ⟨b, rest, rfl, hb, hrest⟩ := h
  intro x hx
  rcases List.mem_cons.mp hx with rfl | hx
  · exact isNameByte_of_isNameStart hb
  · exact hrest x hx

/-- Sources that differ only in the spelling of names. -/
inductive Alike : Bytes → Bytes → Prop where
  | nil : Alike [] []
  | cons (b : UInt8) {s t : Bytes} (h : Alike s t) : Alike (b :: s) (b :: t)
  | name {x y s t : Bytes} (hx : IsName x) (hy : IsName y) (h : Alike s t) :
    Alike (x ++ s) (y ++ t)

theorem Alike.append {s t s' t' : Bytes} (h : Alike s t) (h' : Alike s' t') :
    Alike (s ++ s') (t ++ t') := by
  induction h with
  | nil => exact h'
  | cons b h ih => exact .cons b ih
  | name hx hy h ih =>
    rw [List.append_assoc, List.append_assoc]
    exact .name hx hy ih

theorem Alike.refl (s : Bytes) : Alike s s := by
  induction s with
  | nil => exact .nil
  | cons b s ih => exact .cons b ih

theorem Alike.of_names {x y : Bytes} (hx : IsName x) (hy : IsName y) : Alike x y := by
  simpa using Alike.name hx hy .nil

/-- Alike sources begin with the same byte or both with a name. -/
theorem Alike.head {s t : Bytes} (h : Alike s t) :
    s.head? = t.head? ∨
      ∃ b c, s.head? = some b ∧ t.head? = some c ∧ isNameStart b = true ∧
        isNameStart c = true := by
  cases h with
  | nil => exact .inl rfl
  | cons b h => exact .inl rfl
  | name hx hy h =>
    obtain ⟨b, x, rfl, hb, -⟩ := hx
    obtain ⟨c, y, rfl, hc, -⟩ := hy
    exact .inr ⟨b, c, rfl, rfl, hb, hc⟩

/-- A class of bytes that has all first bytes of names or none of them does not
tell the first bytes of alike sources apart. -/
theorem Alike.head_any {s t : Bytes} (h : Alike s t) (p : UInt8 → Bool) {v : Bool}
    (hp : ∀ b, isNameStart b = true → p b = v) : s.head?.any p = t.head?.any p := by
  rcases h.head with heq | ⟨b, c, hs, ht, hb, hc⟩
  · rw [heq]
  · simp [hs, ht, hp b hb, hp c hc]

/-- A byte that starts no name is first in both or in neither. -/
theorem Alike.head_ne {s t : Bytes} (h : Alike s t) {b : UInt8} (hb : isNameStart b = false)
    (hs : s.head? ≠ some b) : t.head? ≠ some b := by
  rcases h.head with heq | ⟨c, d, -, ht, -, hd⟩
  · rwa [← heq]
  · rw [ht]
    rintro ⟨⟩
    rw [hb] at hd
    exact Bool.noConfusion hd

theorem Alike.eq_nil {t : Bytes} (h : Alike [] t) : t = [] := by
  generalize hs : ([] : Bytes) = s at h
  cases h with
  | nil => rfl
  | cons b h => cases hs
  | name hx hy h =>
    obtain ⟨b, x, rfl, -, -⟩ := hx
    cases hs

/-- The bytes that decide about a literal belong to no name. -/
structure Mark (quote : UInt8) (last : Bytes) : Prop where
  quote_not_name : isNameByte quote = false
  short : last.length ≤ 1
  last_not_name : ∀ b ∈ last, isNameByte b = false

theorem ne_of_isNameByte {b c : UInt8} (hb : isNameByte b = true) (hc : isNameByte c = false) :
    b ≠ c := by
  rintro rfl
  rw [hb] at hc
  exact Bool.noConfusion hc

theorem Body.prepend_name {quote : UInt8} {last s x : Bytes} (hmark : Mark quote last)
    (hx : ∀ b ∈ x, isNameByte b = true) (h : Body quote last s) : Body quote last (x ++ s) := by
  induction x with
  | nil => exact h
  | cons b x ih =>
    have hb := hx b (List.mem_cons_self ..)
    exact .plain (ne_of_isNameByte hb hmark.quote_not_name) (ne_of_isNameByte hb (by decide))
      (ih fun c hc => hx c (List.mem_cons_of_mem _ hc))

theorem Body.strip_name {quote : UInt8} {last s x : Bytes} (hmark : Mark quote last)
    (hx : ∀ b ∈ x, isNameByte b = true) (h : Body quote last (x ++ s)) : Body quote last s := by
  induction x with
  | nil => exact h
  | cons b x ih =>
    have hb := hx b (List.mem_cons_self ..)
    rw [List.cons_append] at h
    generalize hs : b :: (x ++ s) = whole at h
    cases h with
    | last =>
      rw [hmark.last_not_name b (hs ▸ List.mem_cons_self ..)] at hb
      exact Bool.noConfusion hb
    | escaped c h =>
      obtain ⟨rfl, -⟩ := List.cons.inj hs
      exact absurd hb (by decide)
    | plain hquote hescape h =>
      obtain ⟨-, rfl⟩ := List.cons.inj hs
      exact ih (fun c hc => hx c (List.mem_cons_of_mem _ hc)) h

/-- Exchanging names keeps how a literal ends. The second part is for bytes
after a backslash, which takes the first of them with it. -/
theorem Body.alike_both {quote : UInt8} {last s t : Bytes} (hmark : Mark quote last)
    (h : Alike s t) :
    (Body quote last s → Body quote last t) ∧
      (Body quote last (backslash :: s) → Body quote last (backslash :: t)) := by
  induction h with
  | nil => exact ⟨id, id⟩
  | @cons b s t h ih =>
    refine ⟨fun hbody => ?_, fun hbody => ?_⟩
    · generalize hs : b :: s = whole at hbody
      cases hbody with
      | last =>
        have hnil : s = [] := by
          have := hmark.short
          rw [← hs, List.length_cons] at this
          exact List.length_eq_zero_iff.mp (by omega)
        subst hnil
        rw [h.eq_nil, hs]
        exact .last
      | @escaped c s' hbody =>
        obtain ⟨rfl, rfl⟩ := List.cons.inj hs
        exact ih.2 (.escaped c hbody)
      | plain hquote hescape hbody =>
        obtain ⟨rfl, rfl⟩ := List.cons.inj hs
        exact .plain hquote hescape (ih.1 hbody)
    · generalize hs : backslash :: b :: s = whole at hbody
      cases hbody with
      | last =>
        have := hmark.short
        rw [← hs, List.length_cons, List.length_cons] at this
        omega
      | escaped c hbody =>
        obtain ⟨-, hs⟩ := List.cons.inj hs
        obtain ⟨rfl, rfl⟩ := List.cons.inj hs
        exact .escaped _ (ih.1 hbody)
      | plain hquote hescape hbody =>
        obtain ⟨rfl, -⟩ := List.cons.inj hs
        exact absurd rfl hescape
  | @name x y s t hx hy h ih =>
    refine ⟨fun hbody => ?_, fun hbody => ?_⟩
    · exact (ih.1 (hbody.strip_name hmark hx.isNameByte)).prepend_name hmark hy.isNameByte
    · obtain ⟨b, x, rfl, hb, hx⟩ := hx
      obtain ⟨c, y, rfl, hc, hy⟩ := hy
      generalize hs : backslash :: (b :: x ++ s) = whole at hbody
      cases hbody with
      | last =>
        have := hmark.short
        rw [← hs, List.cons_append, List.length_cons, List.length_cons] at this
        omega
      | escaped d hbody =>
        obtain ⟨-, hs⟩ := List.cons.inj hs
        obtain ⟨rfl, rfl⟩ := List.cons.inj hs
        exact .escaped c ((ih.1 (hbody.strip_name hmark hx)).prepend_name hmark hy)
      | plain hquote hescape hbody =>
        obtain ⟨rfl, -⟩ := List.cons.inj hs
        exact absurd rfl hescape

theorem Body.alike {quote : UInt8} {last s t : Bytes} (hmark : Mark quote last) (h : Alike s t)
    (hbody : Body quote last s) : Body quote last t := (Body.alike_both hmark h).1 hbody

theorem take_length_takeWhile (p : UInt8 → Bool) (s : Bytes) :
    s.take (s.takeWhile p).length = s.takeWhile p :=
  (List.prefix_iff_eq_take.mp (List.takeWhile_prefix p)).symm

/-- A longest run stays one when what follows it is exchanged for something alike. -/
theorem Alike.takeWhile_append {p : UInt8 → Bool} (hp : ∀ b, isNameStart b = true → p b = true)
    {s t x : Bytes} (h : Alike (s.drop (s.takeWhile p).length) t) (hx : ∀ b ∈ x, p b = true) :
    (x ++ t).takeWhile p = x := by
  refine takeWhile_append_stop hx ?_
  rw [← h.head_any p hp]
  exact head?_drop_takeWhile p s

theorem Alike.nameLength_append {s t x : Bytes} (h : Alike (s.drop (nameLength s)) t)
    (hx : ∀ b ∈ x, isNameByte b = true) : nameLength (x ++ t) = x.length :=
  congrArg List.length (h.takeWhile_append (fun _ => isNameByte_of_isNameStart) hx)

theorem Alike.lineLength_append {s t : Bytes} (h : Alike (s.drop (lineLength s)) t) :
    lineLength (s.take (lineLength s) ++ t) = (s.take (lineLength s)).length := by
  refine congrArg List.length (h.takeWhile_append (fun b hb => ?_) ?_)
  · have hreturn : isNameStart carriageReturn = false := by decide
    have hfeed : isNameStart lineFeed = false := by decide
    have hne : b ≠ carriageReturn ∧ b ≠ lineFeed :=
      ⟨fun he => by simp [he, hreturn] at hb, fun he => by simp [he, hfeed] at hb⟩
    simpa using hne
  · rw [lineLength, take_length_takeWhile]
    exact fun b hb => List.all_eq_true.mp List.all_takeWhile b hb

/-- A literal stays one, of the new length, when names inside it and after it
are exchanged. -/
theorem Alike.literalLength?_append {quote : UInt8} (hname : isNameByte quote = false)
    (hquote : quote ≠ backslash) {s t u : Bytes} {n : Nat}
    (hlength : literalLength? quote s = some n) (hinside : Alike (s.take n) u)
    (hafter : Alike (s.drop n) t) : literalLength? quote (u ++ t) = some u.length := by
  rcases literalLength?_eq_some hquote hlength with hbody | ⟨rfl, hbody⟩
  · have hmark : Mark quote [quote] := ⟨hname, by simp, by simpa using hname⟩
    exact (hbody.alike hmark hinside).closed hquote t
  · have hmark : Mark quote [] := ⟨hname, by simp, by simp⟩
    rw [List.drop_length] at hafter
    rw [List.take_length] at hinside
    rw [hafter.eq_nil, List.append_nil]
    exact (hbody.alike hmark hinside).unclosed hquote

theorem Alike.literalLength?_none {quote : UInt8} (hname : isNameByte quote = false)
    (hquote : quote ≠ backslash) {s t : Bytes} (h : Alike s t)
    (hlength : literalLength? quote s = none) : literalLength? quote t = none := by
  have hmark : Mark quote [backslash] := ⟨hname, by simp, by simp; decide⟩
  exact ((literalLength?_eq_none hquote).mp hlength).alike hmark h |>.dangling hquote

/-- A byte of no interest stays one before alike bytes. -/
theorem Idle.alike {b : UInt8} {s t : Bytes} (hidle : Idle b s) (h : Alike s t) : Idle b t where
  not_name := hidle.not_name
  not_hash := hidle.not_hash
  not_mark := hidle.not_mark
  slash_alone hb :=
    ⟨h.head_ne (by decide) (hidle.slash_alone hb).1, h.head_ne (by decide) (hidle.slash_alone hb).2⟩
  single_dangling hb :=
    h.literalLength?_none (by decide) (by decide) (hidle.single_dangling hb)
  double_dangling hb :=
    h.literalLength?_none (by decide) (by decide) (hidle.double_dangling hb)
  dollar_alone hb := by
    rw [← h.head_any isNameStart fun _ => id]
    exact hidle.dollar_alone hb
  colon_alone hb := h.head_ne (by decide) (hidle.colon_alone hb)
  minus_alone hb := h.head_ne (by decide) (hidle.minus_alone hb)

/-- A lexeme and what it may become: a name for a name, new variables inside a
double-quoted literal, and no change of anything else. -/
inductive Respelled : Lexeme → Lexeme → Prop where
  | identifier (x : Bytes) {y : Bytes} (h : IsName y) :
    Respelled ⟨.identifier, x⟩ ⟨.identifier, y⟩
  | variable (x : Bytes) {name : Bytes} (h : IsName name) :
    Respelled ⟨.variable, x⟩ ⟨.variable, dollar :: name⟩
  | double {s t : Bytes} (h : Alike s t) :
    Respelled ⟨.double, doubleQuote :: s⟩ ⟨.double, doubleQuote :: t⟩
  | same (l : Lexeme) (hidentifier : l.kind ≠ .identifier) (hvariable : l.kind ≠ .variable)
    (hdouble : l.kind ≠ .double) : Respelled l l

/-- One lexeme off the front of a respelled source. -/
theorem cut_respelled {b : UInt8} {rest t : Bytes} {kind : Kind} {n : Nat} {l : Lexeme}
    (hstarts : Starts b rest kind n) (hl : Respelled ⟨kind, b :: rest.take n⟩ l)
    (ht : Alike (rest.drop n) t) : cut (l.bytes ++ t) = l :: cut t := by
  cases hstarts with
  | line rest =>
    cases hl with
    | same l =>
      have hafter : Alike (rest.drop (lineLength rest)) t := ht
      exact cut_of_starts (.line _) (congrArg (· + 1) hafter.lineLength_append)
  | block rest =>
    cases hl with
    | same l =>
      have hafter : Alike (rest.drop (blockLength rest)) t := ht
      have hlength := blockLength_take_append rest t fun hnil => (hnil ▸ hafter).eq_nil
      have htake := List.length_take_of_le (blockLength_le rest)
      exact cut_of_starts (.block _) (congrArg (· + 1) (hlength.trans htake.symm))
  | hash =>
    cases hl with
    | same l => exact cut_of_starts (.hash _) ht.lineLength_append
  | single h =>
    cases hl with
    | same l =>
      exact cut_of_starts
        (.single (Alike.literalLength?_append (by decide) (by decide) h (.refl _) ht)) rfl
  | double h =>
    cases hl with
    | double hinside =>
      exact cut_of_starts
        (.double (Alike.literalLength?_append (by decide) (by decide) h hinside ht)) rfl
    | same l _ _ hdouble => exact absurd rfl hdouble
  | «variable» h =>
    cases hl with
    | «variable» x hname =>
      obtain ⟨c, name, rfl, hc, hname⟩ := hname
      have hlength := ht.nameLength_append (IsName.isNameByte ⟨c, name, rfl, hc, hname⟩)
      exact cut_of_starts (.variable (by simpa using hc)) hlength
    | same l _ hvariable _ => exact absurd rfl hvariable
  | identifier rest h =>
    cases hl with
    | identifier x hname =>
      obtain ⟨c, name, rfl, hc, hname⟩ := hname
      exact cut_of_starts (.identifier _ hc) (ht.nameLength_append hname)
    | same l hidentifier _ _ => exact absurd rfl hidentifier
  | static rest =>
    cases hl with
    | same l => exact cut_of_starts (.static _) rfl
  | arrow rest =>
    cases hl with
    | same l => exact cut_of_starts (.arrow _) rfl
  | mark rest h =>
    cases hl with
    | same l => exact cut_of_starts (.mark _ h) rfl
  | other h =>
    cases hl with
    | same l => exact cut_of_starts (.other (h.alike ht)) rfl

end RenameServer.Lexeme
