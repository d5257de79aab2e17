import RenameServer.Proofs.Boundaries

/-!
The token under a cursor. A name ends where no byte of a name follows, so an
identifier never starts where a variable ends. A cursor at the start of a token
is on this token, and on no variable if the token is an identifier.
-/
namespace RenameServer.Token

open Utf8 (Bytes)
open Lexeme Respelling

/-- A token among the bytes of a source that starts at `base`. What follows a
name does not go on with it. -/
def InBytes (base : Nat) (bytes : Bytes) (t : Token) : Prop :=
  ∃ l r, bytes = l ++ (t.value ++ r) ∧ base + l.length = t.start ∧
    (t.kind ≠ .punct → r.head?.any isNameByte = false)

theorem InBytes.append_left {base : Nat} {p bytes : Bytes} {t : Token}
    (h : InBytes (base + p.length) bytes t) : InBytes base (p ++ bytes) t := by
  obtain ⟨l, r, rfl, hstart, hr⟩ := h
  refine ⟨p ++ l, r, by rw [List.append_assoc], ?_, hr⟩
  rw [List.length_append]
  omega

/-- A literal that ends with a byte of a name runs to the end of the source. -/
theorem drop_eq_nil_of_getLast {rest : Bytes} {n : Nat} {b : UInt8}
    (h : literalLength? doubleQuote rest = some n) (hlast : (rest.take n).getLast? = some b)
    (hb : isNameByte b = true) : rest.drop n = [] := by
  rcases literalLength?_eq_some (by decide) h with hbody | ⟨rfl, -⟩
  · obtain rfl := Option.some.inj ((hbody.getLast? rfl).symm.trans hlast)
    exact absurd hb (by decide)
  · exact List.drop_length

/-- The last byte of a variable belongs to its name. -/
theorem exists_getLast_of_variable {t : Token} (hkind : t.kind = .variable)
    (h : Spelled t.kind t.value) :
    ∃ b, t.value.getLast? = some b ∧ isNameByte b = true := by
  rw [hkind] at h
  obtain ⟨name, hvalue, hname⟩ := h
  have hbytes := hname.isNameByte
  obtain ⟨b, more, rfl, -, -⟩ := hname
  rw [hvalue]
  have hne : b :: more ≠ [] := List.cons_ne_nil b more
  exact ⟨(b :: more).getLast hne,
    getLast?_cons_of_some (List.getLast?_eq_some_getLast hne) dollar,
    hbytes _ (List.getLast_mem hne)⟩

theorem kind_of_mem_interpolated {t : Token} {base : Nat} {previous : UInt8} {bytes : Bytes}
    (h : t ∈ interpolated base previous bytes) : t.kind = .variable := by
  induction bytes generalizing base previous with
  | nil => cases h
  | cons b rest ih =>
    rw [interpolated] at h
    split at h
    · rcases List.mem_cons.mp h with rfl | h
      · rfl
      · exact ih h
    · exact ih h

/-- A variable in a double-quoted literal does not go on behind the literal. -/
theorem inBytes_of_mem_interpolated {t : Token} {base n : Nat} {rest : Bytes}
    (hlength : literalLength? doubleQuote rest = some n)
    (h : t ∈ interpolated base 0 (doubleQuote :: rest.take n)) (hspelled : Spelled t.kind t.value) :
    InBytes base (doubleQuote :: rest) t := by
  obtain ⟨l, r, hbytes, hstart, hdollar, hr⟩ := exists_of_mem_interpolated h
  have hsource : doubleQuote :: rest = l ++ (t.value ++ (r ++ rest.drop n)) := by
    calc doubleQuote :: rest
        = (doubleQuote :: rest.take n) ++ rest.drop n := by simp
      _ = _ := by rw [hbytes]; simp only [List.append_assoc]
  refine ⟨l, r ++ rest.drop n, hsource, hstart, fun _ => ?_⟩
  cases r with
  | cons b r => exact hr
  | nil =>
    obtain ⟨b, hlast, hname⟩ := exists_getLast_of_variable (kind_of_mem_interpolated h) hspelled
    -- the literal ends with the variable, so it is not closed
    have hinside : (rest.take n).getLast? = some b := by
      have hend : (doubleQuote :: rest.take n).getLast? = some b := by
        rw [hbytes, List.append_nil, List.getLast?_append, hlast]
        rfl
      cases htake : rest.take n with
      | nil =>
        rw [htake] at hend
        obtain rfl := Option.some.inj hend
        exact absurd hname (by decide)
      | cons c more =>
        rw [htake, List.getLast?_cons_cons] at hend
        exact hend
    rw [drop_eq_nil_of_getLast hlength hinside hname]
    rfl

theorem inBytes_of_starts {t : Token} {base n : Nat} {b : UInt8} {rest : Bytes}
    {kind : Lexeme.Kind} (hstarts : Starts b rest kind n)
    (h : t ∈ ofLexeme base ⟨kind, b :: rest.take n⟩) (hspelled : Spelled t.kind t.value) :
    InBytes base (b :: rest) t := by
  have hwhole : ∀ kind, (kind ≠ .punct → (rest.drop n).head?.any isNameByte = false) →
      InBytes base (b :: rest) ⟨kind, base, b :: rest.take n⟩ := fun kind hnext =>
    ⟨[], rest.drop n, by simp, rfl, hnext⟩
  cases hstarts with
  | line | block | hash | single | other => cases h
  | double hlength => exact inBytes_of_mem_interpolated hlength h hspelled
  | «variable» =>
    obtain rfl := List.mem_singleton.mp h
    exact hwhole _ fun _ => head?_drop_takeWhile isNameByte rest
  | identifier =>
    obtain rfl := List.mem_singleton.mp h
    exact hwhole _ fun _ => head?_drop_takeWhile isNameByte rest
  | static | arrow | mark =>
    obtain rfl := List.mem_singleton.mp h
    exact hwhole _ fun hne => absurd rfl hne

theorem inBytes_of_mem_ofLexemes {t : Token} (hspelled : Spelled t.kind t.value) (bytes : Bytes)
    {base : Nat} (h : t ∈ ofLexemes base (cut bytes)) : InBytes base bytes t := by
  fun_induction cut bytes generalizing base with
  | case1 => cases h
  | case2 b rest e =>
    rename_i ih
    rcases List.mem_append.mp h with h | h
    · exact inBytes_of_starts (starts_extent b rest) h hspelled
    · have hsplit : b :: rest = (b :: rest.take e.2) ++ rest.drop e.2 := by simp
      rw [hsplit]
      exact (ih h).append_left

/-- Every token stands where it says in the source. -/
theorem inBytes_of_mem_scan {t : Token} {source : Bytes} (h : t ∈ scan source) :
    InBytes 0 source t :=
  inBytes_of_mem_ofLexemes ((apart_scan source).spelled t h) source h

/-- An identifier never starts where a variable ends. -/
theorem stop_ne_start {source : Bytes} {t u : Token} (ht : t ∈ scan source) (hu : u ∈ scan source)
    (htkind : t.kind = .variable) (hukind : u.kind = .identifier) : t.stop ≠ u.start := by
  intro htouch
  obtain ⟨l, r, hsource, hstart, hnext⟩ := inBytes_of_mem_scan ht
  obtain ⟨l', r', hsource', hstart', -⟩ := inBytes_of_mem_scan hu
  have hsame : (l ++ t.value) ++ r = l' ++ (u.value ++ r') := by
    rw [List.append_assoc, ← hsource, ← hsource']
  have hlength : (l ++ t.value).length = l'.length := by
    rw [List.length_append]
    unfold stop at htouch
    omega
  have hr : r = u.value ++ r' := (List.append_inj hsame hlength).2
  have hname := (apart_scan source).spelled u hu
  rw [hukind] at hname
  obtain ⟨b, more, hvalue, hb, -⟩ := hname
  have hend := hnext (by simp [htkind])
  rw [hr, hvalue] at hend
  have hgoes : isNameByte b = false := hend
  rw [isNameByte_of_isNameStart hb] at hgoes
  cases hgoes

/-- Of two tokens that are apart, one is before the other. -/
theorem stop_le_or_eq {base limit : Nat} {tokens : List Token} (h : Apart base limit tokens)
    {t u : Token} (ht : t ∈ tokens) (hu : u ∈ tokens) :
    t.stop ≤ u.start ∨ u.stop ≤ t.start ∨ t = u := by
  induction tokens generalizing base with
  | nil => cases ht
  | cons first rest ih =>
    have hafter := h.2.2.bounds
    rcases List.mem_cons.mp ht with rfl | htrest
    · rcases List.mem_cons.mp hu with rfl | hurest
      · exact .inr (.inr rfl)
      · exact .inl (hafter u hurest).1
    · rcases List.mem_cons.mp hu with rfl | hurest
      · exact .inr (.inl (hafter t htrest).1)
      · exact ih h.2.2 htrest hurest

/-- Tokens that are apart have no offset in common. -/
theorem eq_of_contains {base limit : Nat} {tokens : List Token} (h : Apart base limit tokens)
    {t u : Token} (ht : t ∈ tokens) (hu : u ∈ tokens) {offset : Int}
    (htoffset : t.contains offset = true) (huoffset : u.contains offset = true) : t = u := by
  simp only [contains, decide_eq_true_eq] at htoffset huoffset
  rcases stop_le_or_eq h ht hu with hle | hle | heq
  · omega
  · omega
  · exact heq

theorem contains_start {base limit : Nat} {tokens : List Token} (h : Apart base limit tokens)
    {t : Token} (ht : t ∈ tokens) : t.contains t.start = true := by
  have hbounds := h.bounds t ht
  simp only [contains, decide_eq_true_eq]
  omega

/-- A cursor at the start of a token is on it. -/
theorem at?_start {base limit : Nat} {tokens : List Token} (h : Apart base limit tokens)
    {t : Token} (ht : t ∈ tokens) : at? tokens t.start t.kind = some t := by
  have hcandidate : t ∈ tokens.filter fun u => u.kind = t.kind :=
    List.mem_filter.mpr ⟨ht, decide_eq_true rfl⟩
  have hfound : ((tokens.filter fun u => u.kind = t.kind).find? fun u =>
      u.contains t.start).isSome = true := by
    rw [List.find?_isSome]
    exact ⟨t, hcandidate, contains_start h ht⟩
  obtain ⟨u, hu⟩ := Option.isSome_iff_exists.mp hfound
  have hmem := (List.mem_filter.mp (List.mem_of_find?_eq_some hu)).1
  have hcontains := List.find?_some (p := fun u : Token => u.contains t.start) hu
  obtain rfl := eq_of_contains h hmem ht hcontains (contains_start h ht)
  simp only [at?, hu]

/-- A cursor at the start of an identifier is on no variable. -/
theorem at?_variable_of_identifier {source : Bytes} {t : Token} (ht : t ∈ scan source)
    (hkind : t.kind = .identifier) : at? (scan source) t.start .variable = none := by
  have hnone : ((scan source).filter fun u => u.kind = .variable).find?
      (fun u => u.contains t.start) = none := by
    rw [List.find?_eq_none]
    intro u hu hcontains
    obtain ⟨hmem, hvariable⟩ := List.mem_filter.mp hu
    obtain rfl := eq_of_contains (apart_scan source) hmem ht hcontains
      (contains_start (apart_scan source) ht)
    simp [hkind] at hvariable
  have htouching : ((scan source).filter fun u => u.kind = .variable).filter
      (fun u => (u.stop : Int) = t.start) = [] := by
    rw [List.filter_eq_nil_iff]
    intro u hu
    obtain ⟨hmem, hvariable⟩ := List.mem_filter.mp hu
    have hne := stop_ne_start hmem ht (of_decide_eq_true hvariable) hkind
    simp only [decide_eq_true_eq]
    omega
  simp only [at?, hnone, htouching, List.getLast?_nil]

end RenameServer.Token
