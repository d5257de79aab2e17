import RenameServer.Proofs.Relexing
import RenameServer.Proofs.Splice
import RenameServer.Rename.Renamer

/-!
Spelling tokens anew. Some variables and identifiers of a source get another
name; the edits that write them are spliced in and the result is scanned again.
It has the same tokens in the same order, at their shifted places and with
their new spellings. This is shown piece by piece: for the variables inside a
double-quoted literal, for one lexeme, and for a whole source.
-/
namespace RenameServer.Respelling

open Utf8 (Bytes)
open Splice Lexeme

/-- The edits that write new spellings; a token without one stays as it is. -/
def edits (spell : Token → Option String) (tokens : List Token) : List TextEdit :=
  tokens.filterMap fun t => (spell t).map fun s => ⟨t.range, s⟩

/-- The bytes of a token in its new spelling. -/
def value (spell : Token → Option String) (t : Token) : Bytes :=
  ((spell t).map Utf8.encode).getD t.value

/-- A token in its new spelling and at its new place. -/
def respell (spell : Token → Option String) (place : Nat → Nat) (t : Token) : Token :=
  ⟨t.kind, place t.start, value spell t⟩

/-- Bytes that are the spelling of a token of a kind. -/
def Spelled : Token.Kind → Bytes → Prop
  | .variable, bytes => ∃ name, bytes = dollar :: name ∧ IsName name
  | .identifier, bytes => IsName bytes
  | .punct, bytes => bytes ≠ []

theorem Spelled.ne_nil {kind : Token.Kind} {bytes : Bytes} (h : Spelled kind bytes) :
    bytes ≠ [] := by
  cases kind with
  | «variable» =>
    obtain ⟨name, rfl, -⟩ := h
    exact List.cons_ne_nil dollar name
  | identifier =>
    obtain ⟨b, rest, rfl, -⟩ := h
    exact List.cons_ne_nil b rest
  | punct => exact h

/-- New spellings are of the same kind as the old ones, and marks keep theirs. -/
def KeepsKinds (spell : Token → Option String) : Prop :=
  ∀ t s, spell t = some s → t.kind ≠ .punct ∧ Spelled t.kind (Utf8.encode s)

variable {spell : Token → Option String}

@[simp] theorem edits_nil : edits spell [] = [] := rfl

theorem edits_append (left right : List Token) :
    edits spell (left ++ right) = edits spell left ++ edits spell right :=
  List.filterMap_append

theorem edits_cons_none {t : Token} (h : spell t = none) (tokens : List Token) :
    edits spell (t :: tokens) = edits spell tokens := by
  simp [edits, h]

theorem edits_cons_some {t : Token} {s : String} (h : spell t = some s) (tokens : List Token) :
    edits spell (t :: tokens) = ⟨t.range, s⟩ :: edits spell tokens := by
  simp [edits, h]

theorem value_of_some {t : Token} {s : String} (h : spell t = some s) :
    value spell t = Utf8.encode s := by
  rw [value, h]
  rfl

theorem value_of_none {t : Token} (h : spell t = none) : value spell t = t.value := by
  rw [value, h]
  rfl

/-- Tokens spelled as they are, in order and apart, from `base` to `limit`. -/
def Apart (base limit : Nat) : List Token → Prop
  | [] => base ≤ limit
  | t :: rest => base ≤ t.start ∧ Spelled t.kind t.value ∧ Apart t.stop limit rest

theorem Apart.le {base limit : Nat} {tokens : List Token} (h : Apart base limit tokens) :
    base ≤ limit := by
  induction tokens generalizing base with
  | nil => exact h
  | cons t rest ih =>
    have := ih h.2.2
    have := h.1
    simp only [Token.stop] at *
    omega

theorem Apart.mono {base base' limit : Nat} {tokens : List Token} (h : Apart base limit tokens)
    (hbase : base' ≤ base) : Apart base' limit tokens := by
  cases tokens with
  | nil => exact Nat.le_trans hbase h
  | cons t rest => exact ⟨Nat.le_trans hbase h.1, h.2⟩

theorem Apart.append {base middle limit : Nat} {left right : List Token}
    (hleft : Apart base middle left) (hright : Apart middle limit right) :
    Apart base limit (left ++ right) := by
  induction left generalizing base with
  | nil => exact hright.mono hleft
  | cons t rest ih => exact ⟨hleft.1, hleft.2.1, ih hleft.2.2⟩

theorem apart_singleton {t : Token} (ht : Spelled t.kind t.value) :
    Apart t.start (t.start + t.value.length) [t] :=
  ⟨Nat.le_refl _, ht, Nat.le_refl _⟩

theorem Apart.bounds {base limit : Nat} {tokens : List Token} (h : Apart base limit tokens) :
    ∀ t ∈ tokens, base ≤ t.start ∧ t.start < t.stop ∧ t.stop ≤ limit := by
  induction tokens generalizing base with
  | nil => simp
  | cons u rest ih =>
    obtain ⟨hbase, hvalue, hrest⟩ := h
    have hlength := List.length_pos_iff.mpr hvalue.ne_nil
    intro t ht
    rcases List.mem_cons.mp ht with rfl | ht
    · exact ⟨hbase, Nat.lt_add_of_pos_right hlength, hrest.le⟩
    · have hafter := ih hrest t ht
      exact ⟨Nat.le_trans (Nat.le_trans hbase (Nat.le_add_right ..)) hafter.1, hafter.2⟩

theorem Apart.spelled {base limit : Nat} {tokens : List Token} (h : Apart base limit tokens) :
    ∀ t ∈ tokens, Spelled t.kind t.value := by
  induction tokens generalizing base with
  | nil => simp
  | cons u rest ih =>
    intro t ht
    rcases List.mem_cons.mp ht with rfl | ht
    · exact h.2.1
    · exact ih h.2.2 t ht

/-- The edits of tokens are in order and apart, too. -/
theorem Apart.within {base limit : Nat} {tokens : List Token} (h : Apart base limit tokens) :
    Within base limit (edits spell tokens) := by
  induction tokens generalizing base with
  | nil => exact h
  | cons t rest ih =>
    obtain ⟨hbase, hvalue, hrest⟩ := h
    have hlength := List.length_pos_iff.mpr hvalue.ne_nil
    cases hspell : spell t with
    | none =>
      rw [edits_cons_none hspell]
      exact (ih hrest).mono (Nat.le_trans hbase (Nat.le_add_right ..))
    | some s =>
      rw [edits_cons_some hspell]
      exact ⟨hbase, Nat.lt_add_of_pos_right hlength, ih hrest⟩

/-- A token by itself becomes its new spelling. -/
theorem spliceFrom_singleton (spell : Token → Option String) (t : Token) :
    spliceFrom t.start t.value (edits spell [t]) = value spell t := by
  cases hspell : spell t with
  | none =>
    rw [edits_cons_none hspell, value_of_none hspell]
    rfl
  | some s =>
    rw [edits_cons_some hspell, value_of_some hspell]
    simp [spliceFrom, Token.range, Token.stop]

/-- What a piece of a source at `base` with its tokens becomes. `scan` is what
finds the tokens of such a piece. -/
structure Stable (spell : Token → Option String) (scan : Nat → Bytes → List Token) (base : Nat)
    (s : Bytes) (tokens : List Token) : Prop where
  apart : Apart base (base + s.length) tokens
  alike : Alike s (spliceFrom base s (edits spell tokens))
  scanned : ∀ moved, scan moved (spliceFrom base s (edits spell tokens)) =
    tokens.map (respell spell (shiftFrom base moved (edits spell tokens)))

/-- The tokens of two pieces move with their pieces. -/
theorem map_respell_append {base : Nat} {s u : Bytes} {left right : List Token}
    (hleft : Apart base (base + s.length) left)
    (hright : Apart (base + s.length) (base + s.length + u.length) right) (moved : Nat) :
    (left ++ right).map (respell spell (shiftFrom base moved (edits spell (left ++ right)))) =
      left.map (respell spell (shiftFrom base moved (edits spell left))) ++
        right.map (respell spell (shiftFrom (base + s.length)
          (moved + (spliceFrom base s (edits spell left)).length) (edits spell right))) := by
  rw [List.map_append, edits_append]
  congr 1
  · refine List.map_congr_left fun t ht => ?_
    have hbounds := hleft.bounds t ht
    rw [respell, respell, shiftFrom_append_le hright.within (by omega)]
  · refine List.map_congr_left fun t ht => ?_
    rw [respell, respell, shiftFrom_append_ge moved s hleft.within hright.within
      (hright.bounds t ht).1]

/-- The previous byte of a literal matters only as far as it is a backslash. -/
theorem interpolated_previous {p q : UInt8} (h : p = backslash ↔ q = backslash) (start : Nat)
    (s : Bytes) : Token.interpolated start p s = Token.interpolated start q s := by
  cases s with
  | nil => rfl
  | cons b rest => simp only [Token.interpolated, ne_eq, h]

/-- No variable starts inside a name. -/
theorem interpolated_name (start : Nat) (p : UInt8) (hp : p ≠ backslash) {x : Bytes}
    (hx : ∀ b ∈ x, isNameByte b = true) (s : Bytes) :
    Token.interpolated start p (x ++ s) = Token.interpolated (start + x.length) 0 s := by
  induction x generalizing start p with
  | nil =>
    exact interpolated_previous ⟨fun h => absurd h hp, fun h => absurd h (by decide)⟩ start s
  | cons b x ih =>
    have hb := hx b (List.mem_cons_self ..)
    have hdollar : b ≠ dollar := ne_of_isNameByte hb (by decide)
    have hescape : b ≠ backslash := ne_of_isNameByte hb (by decide)
    rw [List.cons_append, Token.interpolated, if_neg (fun h => hdollar h.1),
      ih (start + 1) b hescape fun c hc => hx c (List.mem_cons_of_mem _ hc), List.length_cons]
    congr 1
    omega

/-- A token is spelled as its kind demands, also in its new spelling. -/
theorem KeepsKinds.spelled (hspell : KeepsKinds spell) {t : Token} (ht : Spelled t.kind t.value) :
    Spelled t.kind (value spell t) := by
  cases h : spell t with
  | none => rwa [value_of_none h]
  | some s =>
    rw [value_of_some h]
    exact (hspell t s h).2

theorem KeepsKinds.value_punct (hspell : KeepsKinds spell) {t : Token} (ht : t.kind = .punct) :
    value spell t = t.value := by
  cases h : spell t with
  | none => exact value_of_none h
  | some s => exact absurd ht (hspell t s h).1

/-- The name at the front of some bytes that start with one. -/
theorem isName_takeWhile {s : Bytes} (h : s.head?.any isNameStart = true) :
    IsName (s.takeWhile isNameByte) := by
  cases s with
  | nil => simp at h
  | cons b rest =>
    have hb : isNameStart b = true := by simpa using h
    refine ⟨b, rest.takeWhile isNameByte, ?_, hb, ?_⟩
    · rw [List.takeWhile_cons_of_pos (isNameByte_of_isNameStart hb)]
    · exact fun x hx => List.all_eq_true.mp List.all_takeWhile x hx

/-- Two pieces after each other, when scanning what becomes of them finds the
tokens of the first and goes on with the second. -/
theorem Stable.append {scan scan' : Nat → Bytes → List Token} {base : Nat} {s u : Bytes}
    {left right : List Token} (hleft : Apart base (base + s.length) left)
    (halike : Alike s (spliceFrom base s (edits spell left)))
    (hright : Stable spell scan' (base + s.length) u right)
    (hscan : ∀ moved, scan moved (spliceFrom base s (edits spell left) ++
        spliceFrom (base + s.length) u (edits spell right)) =
      left.map (respell spell (shiftFrom base moved (edits spell left))) ++
        scan' (moved + (spliceFrom base s (edits spell left)).length)
          (spliceFrom (base + s.length) u (edits spell right))) :
    Stable spell scan base (s ++ u) (left ++ right) := by
  have hsplice : spliceFrom base (s ++ u) (edits spell (left ++ right)) =
      spliceFrom base s (edits spell left) ++
        spliceFrom (base + s.length) u (edits spell right) := by
    rw [edits_append, spliceFrom_append s u hleft.within hright.apart.within]
  refine ⟨?_, ?_, fun moved => ?_⟩
  · rw [List.length_append, ← Nat.add_assoc]
    exact hleft.append hright.apart
  · rw [hsplice]
    exact halike.append hright.alike
  · rw [hsplice, hscan, hright.scanned, map_respell_append hleft hright.apart]

/-- A piece without tokens before another one. -/
theorem Stable.skip {scan scan' : Nat → Bytes → List Token} {base : Nat} (s : Bytes) {u : Bytes}
    {tokens : List Token} (hright : Stable spell scan' (base + s.length) u tokens)
    (hscan : ∀ moved, scan moved (s ++ spliceFrom (base + s.length) u (edits spell tokens)) =
      scan' (moved + s.length) (spliceFrom (base + s.length) u (edits spell tokens))) :
    Stable spell scan base (s ++ u) tokens := by
  have hleft : Apart base (base + s.length) [] := Nat.le_add_right ..
  exact Stable.append hleft (.refl s) hright hscan

/-- A variable in a literal is read up to the end of its name. -/
theorem interpolated_variable (start : Nat) {p : UInt8} (hp : p ≠ backslash) {name rest : Bytes}
    (hname : IsName name) (hrest : rest.head?.any isNameByte = false) :
    Token.interpolated start p (dollar :: (name ++ rest)) =
      ⟨.variable, start, dollar :: name⟩ ::
        Token.interpolated (start + (dollar :: name).length) 0 rest := by
  have hhead : (name ++ rest).head?.any isNameStart = true := by
    obtain ⟨b, name, rfl, hb, -⟩ := hname
    simpa using hb
  rw [Token.interpolated, if_pos ⟨rfl, hp, hhead⟩,
    takeWhile_append_stop hname.isNameByte hrest,
    interpolated_name (start + 1) dollar (by decide) hname.isNameByte, List.length_cons]
  congr 2
  omega

theorem interpolated_plain (start : Nat) {p b : UInt8} {rest : Bytes}
    (h : ¬(b = dollar ∧ p ≠ backslash ∧ rest.head?.any isNameStart = true)) :
    Token.interpolated start p (b :: rest) = Token.interpolated (start + 1) b rest := by
  rw [Token.interpolated, if_neg h]

/-- The first token of a piece is found at the new place of the piece. -/
theorem map_respell_singleton {t : Token} (ht : Spelled t.kind t.value) (moved : Nat) :
    [t].map (respell spell (shiftFrom t.start moved (edits spell [t]))) =
      [⟨t.kind, moved, value spell t⟩] := by
  rw [List.map_singleton, respell, shiftFrom_before (apart_singleton ht).within (Nat.le_refl _),
    Nat.sub_self, Nat.add_zero]

/-- A name at the front of some bytes, and what follows it. -/
theorem exists_isName_append {s : Bytes} (h : s.head?.any isNameStart = true) :
    ∃ name rest, s = name ++ rest ∧ IsName name ∧ rest.head?.any isNameByte = false := by
  refine ⟨s.takeWhile isNameByte, s.drop (s.takeWhile isNameByte).length, ?_,
    isName_takeWhile h, head?_drop_takeWhile isNameByte s⟩
  rw [← take_length_takeWhile, List.length_take_of_le, List.take_append_drop]
  exact (List.takeWhile_prefix isNameByte).length_le

/-- The variables inside a literal keep their places among its other bytes. -/
theorem stable_interpolated (hspell : KeepsKinds spell) (base : Nat) (previous : UInt8)
    (s : Bytes) :
    Stable spell (fun start bytes => Token.interpolated start previous bytes) base s
      (Token.interpolated base previous s) := by
  induction hn : s.length using Nat.strongRecOn generalizing base previous s with
  | ind n ih =>
    cases s with
    | nil => exact ⟨Nat.le_refl _, .nil, fun _ => rfl⟩
    | cons b rest =>
      by_cases hvariable : b = dollar ∧ previous ≠ backslash ∧ rest.head?.any isNameStart = true
      · obtain ⟨rfl, hprevious, hhead⟩ := hvariable
        obtain ⟨name, more, rfl, hname, hmore⟩ := exists_isName_append hhead
        have hspelled : Spelled .variable (dollar :: name) := ⟨name, rfl, hname⟩
        obtain ⟨name', hvalue, hname'⟩ :=
          hspell.spelled (t := ⟨.variable, base, dollar :: name⟩) hspelled
        have hright := ih more.length (by
          simp only [← hn, List.length_cons, List.length_append]; omega)
          (base + (dollar :: name).length) 0 more rfl
        have hsplice := spliceFrom_singleton spell ⟨.variable, base, dollar :: name⟩
        rw [hvalue] at hsplice
        rw [interpolated_variable base hprevious hname hmore]
        refine Stable.append (s := dollar :: name)
          (apart_singleton (t := ⟨.variable, base, dollar :: name⟩) hspelled) ?_ hright
          fun moved => ?_
        · rw [hsplice]
          exact .cons dollar (.of_names hname hname')
        · have hmore' := hmore
          rw [hright.alike.head_any isNameByte fun _ => isNameByte_of_isNameStart] at hmore'
          rw [map_respell_singleton (t := ⟨.variable, base, dollar :: name⟩) hspelled, hvalue,
            hsplice]
          exact interpolated_variable moved hprevious hname' hmore'
      · have hright := ih rest.length (by simp only [← hn, List.length_cons]; omega) (base + 1) b
          rest rfl
        rw [interpolated_plain base hvariable]
        refine Stable.skip [b] hright fun moved => ?_
        have hvariable' := hvariable
        rw [hright.alike.head_any isNameStart fun _ => id] at hvariable'
        exact interpolated_plain moved hvariable'

/-- What becomes of a lexeme at `base`. -/
structure StableLexeme (spell : Token → Option String) (base : Nat) (l : Lexeme) : Prop where
  stable : Stable spell (fun start bytes => Token.ofLexeme start ⟨l.kind, bytes⟩) base l.bytes
    (Token.ofLexeme base l)
  respelled : Respelled l ⟨l.kind, spliceFrom base l.bytes (edits spell (Token.ofLexeme base l))⟩

/-- A lexeme without tokens stays as it is. -/
theorem stableLexeme_of_none (base : Nat) {l : Lexeme}
    (h : l.kind = .comment ∨ l.kind = .single ∨ l.kind = .other) : StableLexeme spell base l := by
  have hnone : ∀ start bytes, Token.ofLexeme start ⟨l.kind, bytes⟩ = [] := by
    intro start bytes
    rcases h with h | h | h <;> simp [Token.ofLexeme, h]
  have hnil : Token.ofLexeme base l = [] := hnone base l.bytes
  have hkinds : l.kind ≠ .identifier ∧ l.kind ≠ .variable ∧ l.kind ≠ .double := by
    rcases h with h | h | h <;> simp [h]
  refine ⟨⟨?_, ?_, fun moved => ?_⟩, ?_⟩
  · rw [hnil]
    exact Nat.le_add_right ..
  · rw [hnil]
    exact .refl l.bytes
  · rw [hnone, hnil]
    rfl
  · rw [hnil]
    exact .same l hkinds.1 hkinds.2.1 hkinds.2.2

/-- A lexeme that is a token becomes the token in its new spelling. -/
theorem stableLexeme_of_token {base : Nat} {l : Lexeme} {kind : Token.Kind}
    (hone : ∀ start bytes, Token.ofLexeme start ⟨l.kind, bytes⟩ = [⟨kind, start, bytes⟩])
    (hbytes : Spelled kind l.bytes) (halike : Alike l.bytes (value spell ⟨kind, base, l.bytes⟩))
    (hrespelled : Respelled l ⟨l.kind, value spell ⟨kind, base, l.bytes⟩⟩) :
    StableLexeme spell base l := by
  have htoken : Token.ofLexeme base l = [⟨kind, base, l.bytes⟩] := hone base l.bytes
  have hsplice := spliceFrom_singleton spell ⟨kind, base, l.bytes⟩
  rw [← htoken] at hsplice
  refine ⟨⟨?_, ?_, fun moved => ?_⟩, ?_⟩
  · rw [htoken]
    exact apart_singleton (t := ⟨kind, base, l.bytes⟩) hbytes
  · exact hsplice ▸ halike
  · rw [hone, hsplice, htoken]
    exact (map_respell_singleton (t := ⟨kind, base, l.bytes⟩) hbytes moved).symm
  · exact hsplice ▸ hrespelled

/-- A double-quoted literal keeps its quotes. -/
theorem stableLexeme_double (hspell : KeepsKinds spell) (base : Nat) (s : Bytes) :
    StableLexeme spell base ⟨.double, doubleQuote :: s⟩ := by
  have hinside := stable_interpolated hspell (base + 1) doubleQuote s
  have hskip : ∀ start inside, Token.ofLexeme start ⟨.double, doubleQuote :: inside⟩ =
      Token.interpolated (start + 1) doubleQuote inside :=
    fun start inside => interpolated_plain (p := 0) (b := doubleQuote) start fun h =>
      absurd h.1 (by decide)
  refine ⟨?_, ?_⟩
  · rw [hskip]
    exact Stable.skip [doubleQuote] hinside fun moved => hskip moved _
  · rw [hskip, spliceFrom_skip (n := 1) hinside.apart.within]
    exact .double hinside.alike

theorem stableLexeme_of_starts (hspell : KeepsKinds spell) (base : Nat) {b : UInt8} {rest : Bytes}
    {kind : Kind} {n : Nat} (h : Starts b rest kind n) :
    StableLexeme spell base ⟨kind, b :: rest.take n⟩ := by
  have hpunct : kind = .punct → StableLexeme spell base ⟨kind, b :: rest.take n⟩ := by
    rintro rfl
    have hbytes : Spelled .punct (b :: rest.take n) := List.cons_ne_nil b _
    have hvalue : value spell ⟨.punct, base, b :: rest.take n⟩ = b :: rest.take n :=
      hspell.value_punct rfl
    refine stableLexeme_of_token (fun _ _ => rfl) hbytes ?_ ?_
    · rw [hvalue]
      exact .refl _
    · rw [hvalue]
      exact .same _ (by simp) (by simp) (by simp)
  cases h with
  | line => exact stableLexeme_of_none base (.inl rfl)
  | block => exact stableLexeme_of_none base (.inl rfl)
  | hash => exact stableLexeme_of_none base (.inl rfl)
  | single => exact stableLexeme_of_none base (.inr (.inl rfl))
  | other => exact stableLexeme_of_none base (.inr (.inr rfl))
  | static => exact hpunct rfl
  | arrow => exact hpunct rfl
  | mark => exact hpunct rfl
  | double => exact stableLexeme_double hspell base _
  | «variable» h =>
    have hname := isName_takeWhile h
    rw [← take_length_takeWhile] at hname
    have hbytes : Spelled .variable (dollar :: rest.take (rest.takeWhile isNameByte).length) :=
      ⟨_, rfl, hname⟩
    obtain ⟨name, hvalue, hname'⟩ := hspell.spelled (t := ⟨.variable, base, _⟩) hbytes
    refine stableLexeme_of_token (fun _ _ => rfl) hbytes ?_ ?_
    · exact hvalue ▸ .cons dollar (.of_names hname hname')
    · exact hvalue ▸ .variable _ hname'
  | identifier rest h =>
    have hname : IsName (b :: rest.take (nameLength rest)) := by
      refine ⟨b, _, rfl, h, ?_⟩
      rw [nameLength, take_length_takeWhile]
      exact fun x hx => List.all_eq_true.mp List.all_takeWhile x hx
    have hname' := hspell.spelled (t := ⟨.identifier, base, _⟩) hname
    refine stableLexeme_of_token (fun _ _ => rfl) hname ?_ ?_
    · exact .of_names hname hname'
    · exact .identifier _ hname'

/-- The tokens of a source from `base` on. -/
theorem stable_cut (hspell : KeepsKinds spell) (base : Nat) (s : Bytes) :
    Stable spell (fun start bytes => Token.ofLexemes start (cut bytes)) base s
      (Token.ofLexemes base (cut s)) := by
  fun_induction cut s generalizing base with
  | case1 =>
    refine ⟨Nat.le_refl _, .nil, fun moved => ?_⟩
    rw [Token.ofLexemes, edits_nil, spliceFrom, cut]
    rfl
  | case2 b rest e ih =>
    have hstarts := starts_extent b rest
    have hlexeme := stableLexeme_of_starts hspell base hstarts
    have hsplit : b :: rest = (b :: rest.take e.2) ++ rest.drop e.2 := by simp
    have hright := ih (base + (b :: rest.take e.2).length)
    rw [hsplit]
    refine Stable.append hlexeme.stable.apart hlexeme.stable.alike hright fun moved => ?_
    rw [← hlexeme.stable.scanned]
    exact congrArg (Token.ofLexemes moved)
      (cut_respelled hstarts hlexeme.respelled hright.alike)

/-- Scanning a source with its new spellings spliced in. -/
theorem scan_splice (hspell : KeepsKinds spell) (source : Bytes) :
    Token.scan (splice source (edits spell (Token.scan source))) =
      (Token.scan source).map (respell spell (shift (edits spell (Token.scan source)))) :=
  (stable_cut hspell 0 source).scanned 0

/-- The tokens of a source are apart. -/
theorem apart_scan (source : Bytes) : Apart 0 source.length (Token.scan source) := by
  have hkeep : KeepsKinds fun _ => none := fun t s h => by cases h
  exact Nat.zero_add source.length ▸ (stable_cut hkeep 0 source).apart

/-- The end of a token moves to the end of its new spelling. -/
theorem Apart.shiftFrom_stop {base limit : Nat} {tokens : List Token}
    (h : Apart base limit tokens) (moved : Nat) :
    ∀ t ∈ tokens, shiftFrom base moved (edits spell tokens) t.stop =
      shiftFrom base moved (edits spell tokens) t.start + (value spell t).length := by
  induction tokens generalizing base moved with
  | nil => simp
  | cons u rest ih =>
    obtain ⟨hbase, hvalue, hrest⟩ := h
    have hlength := List.length_pos_iff.mpr hvalue.ne_nil
    have hwithin : Within u.stop limit (edits spell rest) := hrest.within
    have hstop : u.start + u.value.length = u.stop := rfl
    intro t ht
    cases hspell : spell u with
    | none =>
      rw [edits_cons_none hspell]
      rcases List.mem_cons.mp ht with rfl | ht
      · rw [shiftFrom_before hwithin (Nat.le_refl _), shiftFrom_before hwithin (by omega),
          value_of_none hspell]
        omega
      · exact ih (hrest.mono (by omega)) moved t ht
    | some s =>
      simp only [edits_cons_some hspell, shiftFrom, Token.range]
      rcases List.mem_cons.mp ht with rfl | ht
      · rw [if_pos (Nat.le_refl _), if_neg (by omega), shiftFrom_before hwithin (Nat.le_refl _),
          value_of_some hspell]
        omega
      · have hafter := hrest.bounds t ht
        rw [if_pos (by omega), if_pos hafter.1]
        exact ih hrest _ t ht

end RenameServer.Respelling
