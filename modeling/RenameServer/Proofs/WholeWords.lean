import RenameServer.Proofs.Interpolation
import RenameServer.Proofs.Strategies

/-!
Identifiers as words. A word is a run of name bytes, and an identifier goes to the end of one.
It need not go back to its front: a digit starts no name, so digits before a name are left where
they are, and the name behind them is an identifier by itself. Nothing else that could belong to
a word is before an identifier. A rename of references writes to identifiers only.
-/
namespace RenameServer

open Utf8 (Bytes)

namespace Lexeme

def isDigit (b : UInt8) : Bool := 0x30 ≤ b ∧ b ≤ 0x39

theorem isNameByte_eq (b : UInt8) : isNameByte b = (isNameStart b || isDigit b) := by
  rw [isNameByte, isDigit, Bool.decide_or, Bool.decide_eq_true]

variable {b : UInt8} {rest : Bytes} {kind : Kind} {n : Nat}

/-- The last byte of a literal, where more follows. -/
theorem getLast?_literal {quote : UInt8} (hquote : quote ≠ backslash)
    (h : literalLength? quote rest = some n) (hmore : rest.drop n ≠ []) :
    (quote :: rest.take n).getLast? = some quote := by
  rcases literalLength?_eq_some hquote h with hbody | ⟨rfl, -⟩
  · exact getLast?_cons_of_some (hbody.getLast? rfl) quote
  · exact absurd List.drop_length hmore

/-- What a lexeme has before the byte of a name. -/
theorem Starts.last (h : Starts b rest kind n) {c d : UInt8} (hc : (rest.drop n).head? = some c)
    (hname : isNameByte c = true) (hd : (b :: rest.take n).getLast? = some d) :
    (isNameByte d = false ∨ isDigit d = true ∧ b = d ∧ n = 0) ∧
      (isNameStart c = true → d ≠ dollar) := by
  have hmore : rest.drop n ≠ [] := fun hnil => by rw [hnil] at hc; cases hc
  have hends : ∀ x, (b :: rest.take n).getLast? = some x → isNameByte x = false → x ≠ dollar →
      (isNameByte d = false ∨ isDigit d = true ∧ b = d ∧ n = 0) ∧
        (isNameStart c = true → d ≠ dollar) := by
    intro x hx hbyte hdollar
    obtain rfl := Option.some.inj (hd.symm.trans hx)
    exact ⟨.inl hbyte, fun _ => hdollar⟩
  have hrun : ∀ {p : UInt8 → Bool} {s : Bytes}, (s.drop (s.takeWhile p).length).head? = some c →
      p c = false := by
    intro p s hs
    simpa [hs] using head?_drop_takeWhile p s
  have hline : ∀ {s : Bytes}, (s.drop (lineLength s)).head? ≠ some c := by
    intro s hs
    have hend : c = carriageReturn ∨ c = lineFeed := by
      simpa [or_iff_not_imp_left] using hrun hs
    rcases hend with rfl | rfl <;> cases hname
  cases h with
  | line rest => exact absurd hc hline
  | block rest =>
    rcases blockLength_cases rest with hend | hlast
    · exact absurd hend hmore
    · exact hends slash (getLast?_cons_of_some (getLast?_cons_of_some hlast star) slash)
        (by decide) (by decide)
  | hash => exact absurd hc hline
  | single h =>
    exact hends singleQuote (getLast?_literal (by decide) h hmore) (by decide) (by decide)
  | double h =>
    exact hends doubleQuote (getLast?_literal (by decide) h hmore) (by decide) (by decide)
  | «variable» h => exact absurd hname (Bool.eq_false_iff.mp (hrun hc))
  | identifier rest h => exact absurd hname (Bool.eq_false_iff.mp (hrun hc))
  | static rest => exact hends colon rfl (by decide) (by decide)
  | arrow rest => exact hends greater rfl (by decide) (by decide)
  | mark rest h =>
    refine hends b rfl ?_ ?_ <;> rcases h with rfl | rfl | rfl <;> decide
  | other h =>
    obtain rfl : b = d := Option.some.inj hd
    refine ⟨?_, fun hstart hdollar => ?_⟩
    · rw [isNameByte_eq, h.not_name, Bool.false_or]
      cases hdigit : isDigit b with
      | false => exact .inl rfl
      | true => exact .inr ⟨rfl, rfl, rfl⟩
    · have halone := h.dollar_alone hdollar
      rw [List.drop_zero] at hc
      rw [hc, Option.any_some, hstart] at halone
      cases halone

/-- The bytes before a byte of a name that a lexeme starts with: digits, and nothing before
them that belongs to a word. -/
theorem exists_digits {source : Bytes} {before after : List Lexeme} {l : Lexeme} {c : UInt8}
    (h : cut source = before ++ l :: after) (hc : l.bytes.head? = some c)
    (hname : isNameByte c = true) :
    ∃ p digits, before.flatMap bytes = p ++ digits ∧ (∀ b ∈ digits, isDigit b = true) ∧
      p.getLast?.any isNameByte = false ∧
      (isNameStart c = true → digits = [] → p.getLast? ≠ some dollar) := by
  -- Going back from the byte: a digit is a lexeme by itself, and what is before it counts again.
  induction before using List.reverseRecOn generalizing l after c with
  | nil => exact ⟨[], [], rfl, List.forall_mem_nil _, rfl, fun _ _ => (Option.some_ne_none _).symm⟩
  | append_singleton front k ih =>
    rw [List.append_assoc] at h
    obtain ⟨b, rest, n, hstarts, hbytes, hsource, hafter⟩ := starts_of_cut h
    have hnext : (rest.drop n).head? = some c := by
      rw [← flatMap_bytes_cut (rest.drop n), ← hafter]
      simp [hc]
    have hd := List.getLast?_eq_some_getLast (List.cons_ne_nil b (rest.take n))
    generalize (b :: rest.take n).getLast _ = d at hd
    obtain ⟨hlast, hdollar⟩ := hstarts.last hnext hname hd
    rcases hlast with hbyte | ⟨hdigit, rfl, rfl⟩
    · have hend : ((front ++ [k]).flatMap bytes).getLast? = some d := by
        simp [hbytes, List.getLast?_append, hd]
      refine ⟨_, [], (List.append_nil _).symm, List.forall_mem_nil _, ?_, fun hstart _ => ?_⟩
      · rw [hend, Option.any_some, hbyte]
      · rw [hend]
        exact fun heq => hdollar hstart (Option.some.inj heq)
    · have hk : k.bytes = [b] := hbytes
      obtain ⟨p, digits, hsplit, hdigits, hp, -⟩ :=
        ih h (by rw [hk]; rfl) (by rw [isNameByte_eq, hdigit, Bool.or_true])
      refine ⟨p, digits ++ [b], ?_, ?_, hp, fun _ hnil => ?_⟩
      · rw [List.flatMap_append, hsplit, List.flatMap_singleton, hk, List.append_assoc]
      · intro x hx
        rcases List.mem_append.mp hx with hx | hx
        · exact hdigits x hx
        · rwa [List.mem_singleton.mp hx]
      · exact absurd hnil (List.append_ne_nil_of_right_ne_nil _ (List.cons_ne_nil _ _))

/-- No byte of a word is next to the range, and no dollar sign is before it. -/
def WholeWord (source : Bytes) (r : ByteRange) : Prop :=
  (∀ b, (source.take r.start).getLast? = some b → b ≠ dollar ∧ isNameByte b = false) ∧
    ∀ b, (source.drop r.stop).head? = some b → isNameByte b = false

/-- A name that is a word up to the digits at the front of it. -/
structure EndsWord (source : Bytes) (r : ByteRange) (digits : Bytes) : Prop where
  all_digits : ∀ b ∈ digits, isDigit b = true
  split : ∃ p name q, source = p ++ digits ++ (name ++ q) ∧ r.start = (p ++ digits).length ∧
    r.stop = r.start + name.length ∧ IsName name ∧ p.getLast?.any isNameByte = false ∧
    (digits = [] → p.getLast? ≠ some dollar) ∧ q.head?.any isNameByte = false

/-- Such a name is a whole word if and only if no digit is right before it. -/
theorem EndsWord.wholeWord_iff {source digits : Bytes} {r : ByteRange}
    (h : EndsWord source r digits) :
    WholeWord source r ↔ (source.take r.start).getLast?.any isDigit = false := by
  obtain ⟨p, name, q, rfl, hstart, hstop, -, hp, hdollar, hq⟩ := h.split
  have htake : (p ++ digits ++ (name ++ q)).take r.start = p ++ digits := by
    rw [hstart, List.take_left]
  have hdrop : (p ++ digits ++ (name ++ q)).drop r.stop = q := by
    rw [hstop, ← List.drop_drop, hstart, List.drop_left, List.drop_left]
  rw [WholeWord, htake, hdrop]
  constructor
  · intro hwhole
    cases hlast : (p ++ digits).getLast? with
    | none => rfl
    | some b =>
      have hbyte := (hwhole.1 b hlast).2
      rw [isNameByte_eq, Bool.or_eq_false_iff] at hbyte
      exact hbyte.2
  · intro hnone
    have hnil : digits = [] := by
      rcases List.eq_nil_or_concat' digits with hnil | ⟨front, b, rfl⟩
      · exact hnil
      · rw [← List.append_assoc, List.getLast?_concat, Option.any_some,
          h.all_digits b (List.mem_concat_self ..)] at hnone
        cases hnone
    subst hnil
    rw [List.append_nil]
    refine ⟨fun b hb => ⟨?_, by simpa [hb] using hp⟩, fun b hb => by simpa [hb] using hq⟩
    rintro rfl
    exact hdollar rfl hb

end Lexeme

namespace Token

open Lexeme

variable {t : Token}

theorem ofLexemes_eq_collect (start : Nat) (ls : List Lexeme) :
    ofLexemes start ls = collect ofLexeme start ls := by
  induction ls generalizing start with
  | nil => rfl
  | cons l ls ih => rw [ofLexemes, collect, ih]

theorem exists_cut_of_identifier {source : Bytes} (ht : t ∈ scan source)
    (hkind : t.kind = .identifier) :
    ∃ before after, cut source = before ++ ⟨.identifier, t.value⟩ :: after ∧
      t.start = (before.flatMap Lexeme.bytes).length := by
  rw [scan, ofLexemes_eq_collect] at ht
  obtain ⟨before, ⟨kind, bytes⟩, after, hcut, hl⟩ := exists_of_mem_collect ht
  rw [Nat.zero_add] at hl
  cases kind with
  | comment | single | other => cases hl
  | double =>
    rw [kind_of_mem_interpolated hl] at hkind
    cases hkind
  | «variable» | punct =>
    rw [List.mem_singleton.mp hl] at hkind
    cases hkind
  | identifier =>
    obtain rfl := List.mem_singleton.mp hl
    exact ⟨before, after, hcut, rfl⟩

/-- An identifier is all of a word but digits. -/
theorem exists_endsWord {source : Bytes} (ht : t ∈ scan source) (hkind : t.kind = .identifier) :
    ∃ digits, EndsWord source t.range digits := by
  obtain ⟨before, after, hcut, hstart⟩ := exists_cut_of_identifier ht hkind
  have hname : IsName t.value := by
    have hspelled := (Respelling.apart_scan source).spelled t ht
    rwa [hkind] at hspelled
  obtain ⟨c, rest, hvalue, hc, hrest⟩ := hname
  obtain ⟨p, digits, hbefore, hdigits, hp, hdollar⟩ :=
    exists_digits hcut (by rw [hvalue]; rfl) (isNameByte_of_isNameStart hc)
  obtain ⟨l, q, hsource, hlength, hq⟩ := inBytes_of_mem_scan ht
  have hl : l = p ++ digits := by
    have hbytes := flatMap_bytes_cut source
    rw [hcut, List.flatMap_append, hsource, hbefore] at hbytes
    refine (List.append_inj hbytes ?_).1.symm
    rw [← hbefore, ← hstart, ← hlength, Nat.zero_add]
  refine ⟨digits, hdigits, p, t.value, q, hl ▸ hsource, ?_, rfl, ⟨c, rest, hvalue, hc, hrest⟩, hp,
    hdollar hc, hq (by rw [hkind]; decide)⟩
  rw [← hbefore]
  exact hstart

end Token

namespace Reference

open Lexeme

variable {world : Nat → Workspace} {p q : Nat}

theorem exists_token_of_matching {uri : Json} {spelling : Bytes} {tokens : List Token}
    {r : LocatedRange} (h : r ∈ matching uri spelling tokens) :
    r.uri = uri ∧ ∃ t ∈ tokens, t.kind = .identifier ∧ r.range = t.range := by
  obtain ⟨t, ht, rfl⟩ := List.mem_map.mp h
  obtain ⟨hmem, hfound⟩ := List.mem_filter.mp ht
  exact ⟨rfl, t, hmem, (of_decide_eq_true hfound).1, rfl⟩

theorem exists_document_of_elsewhere {uri : Json} {spelling : Bytes} {documents : List Document}
    {ranges : List LocatedRange} (h : (elsewhere uri spelling documents).Gives world p q ranges) :
    ∀ r ∈ ranges, ∃ d ∈ documents, ∃ text, d.uri.same uri = false ∧ d.text = .str text ∧
      r ∈ matching d.uri spelling (Token.scan (Utf8.encode text)) := by
  induction documents generalizing p ranges with
  | nil =>
    cases h
    exact List.forall_mem_nil _
  | cons d rest ih =>
    have hlater : ∀ {p : Nat} {ranges : List LocatedRange},
        (elsewhere uri spelling rest).Gives world p q ranges → ∀ r ∈ ranges,
          ∃ e ∈ d :: rest, ∃ text, e.uri.same uri = false ∧ e.text = .str text ∧
            r ∈ matching e.uri spelling (Token.scan (Utf8.encode text)) := by
      intro p ranges h r hr
      obtain ⟨e, he, hrest⟩ := ih h r hr
      exact ⟨e, List.mem_cons_of_mem _ he, hrest⟩
    rcases elsewhere_cases uri spelling d rest with
      ⟨-, heq⟩ | ⟨hother, ⟨text, htext, heq⟩ | ⟨fault, heq⟩⟩
    · exact hlater (heq ▸ h)
    · rw [heq] at h
      obtain ⟨i, ys, -, hys, rfl⟩ := h.of_prepend
      intro r hr
      rcases List.mem_append.mp hr with hr | hr
      · exact ⟨d, List.mem_cons_self .., text, Bool.eq_false_iff.mpr hother, htext, hr⟩
      · exact hlater hys r hr
    · rw [heq] at h
      cases h
      exact List.forall_mem_nil _

/-- The text of the document of the cursor, or of another one that is open at a moment of the
rename. -/
def Shows (world : Nat → Workspace) (p q : Nat) (s : Source) (uri : Json) (text : String) : Prop :=
  uri = s.uri ∧ text = s.text ∨ ∃ i d, p ≤ i ∧ i ≤ q ∧ d ∈ (world i).documents ∧
    d.uri.same s.uri = false ∧ d.uri = uri ∧ d.text = .str text

/-- The strategy writes to identifiers. -/
theorem exists_identifier_of_gives {s : Source} {offset : Int} {newName : Json}
    {items : List Step} (h : (steps s offset newName).Gives world p q items) {e : LocatedEdit}
    (he : .edit e ∈ items) :
    ∃ text, Shows world p q s e.uri text ∧
      ∃ t ∈ Token.scan (Utf8.encode text), t.kind = .identifier ∧ e.range = t.range := by
  rcases steps_cases s offset newName with
    ⟨message, kind, hsteps⟩ | ⟨fault, hsteps⟩ | ⟨target, name, -, hsteps⟩
  · rw [hsteps] at h
    cases h with
    | item _ _ h =>
      cases h
      cases List.mem_singleton.mp he
  · rw [hsteps] at h
    cases h
    cases he
  · rw [hsteps] at h
    obtain ⟨ranges, hranges, rfl⟩ := h.of_map
    obtain ⟨r, hr, hwrite⟩ := List.mem_map.mp he
    obtain rfl := Step.edit.inj hwrite
    obtain ⟨i, ys, hi, hlook, rfl⟩ := hranges.of_prepend
    have hle := hlook.le
    rcases List.mem_append.mp hr with hr | hr
    · obtain ⟨huri, t, ht, hkind, hrange⟩ := exists_token_of_matching hr
      exact ⟨s.text, .inl ⟨huri, rfl⟩, t, ht, hkind, hrange⟩
    · cases hlook with
      | look hys =>
        obtain ⟨d, hd, text, hother, htext, hmatch⟩ := exists_document_of_elsewhere hys r hr
        obtain ⟨huri, t, ht, hkind, hrange⟩ := exists_token_of_matching hmatch
        exact ⟨text, .inr ⟨i, d, hi, hle, hd, hother, huri.symm, htext⟩, t, ht, hkind, hrange⟩

/-- Identifiers, and with them the places that a rename of references writes to, are words up to
the digits at their front. They are whole words if and only if no digit is right before them. -/
theorem references_end_words (source : Bytes) {s : Source} {offset : Int} {newName : Json}
    {items : List Step} (h : (renamer.steps s offset newName).Gives world p q items) :
    (∀ t ∈ Token.scan source, t.kind = .identifier →
        (∃ digits, EndsWord source t.range digits) ∧
          (WholeWord source t.range ↔ (source.take t.start).getLast?.any isDigit = false)) ∧
      ∀ e, .edit e ∈ items → ∃ text, Shows world p q s e.uri text ∧
        let source := Utf8.encode text
        (∃ digits, EndsWord source e.range digits) ∧
          (WholeWord source e.range ↔
            (source.take e.range.start).getLast?.any isDigit = false) := by
  have hword : ∀ source, ∀ t ∈ Token.scan source, t.kind = .identifier →
      (∃ digits, EndsWord source t.range digits) ∧
        (WholeWord source t.range ↔ (source.take t.start).getLast?.any isDigit = false) := by
    intro source t ht hkind
    obtain ⟨digits, hends⟩ := Token.exists_endsWord ht hkind
    exact ⟨⟨digits, hends⟩, hends.wholeWord_iff⟩
  refine ⟨hword source, fun e he => ?_⟩
  obtain ⟨text, hshows, t, ht, hkind, hrange⟩ := exists_identifier_of_gives h he
  rw [hrange]
  exact ⟨text, hshows, hword _ t ht hkind⟩

/-- The name of a call, and the exponent of a number behind a digit. -/
theorem references_end_words_number :
    let text := "e5(); 1e5;"
    let source := Utf8.encode text
    let call : LocatedEdit := ⟨.str "a", ⟨0, 2, by decide⟩, "f"⟩
    let exponent : LocatedEdit := ⟨.str "a", ⟨7, 9, by decide⟩, "f"⟩
    let drawn := (renamer.steps ⟨.str "a", text⟩ 0 (.str "f")).draw ⟨[]⟩ none
    drawn.items = [.edit call, .edit exponent] ∧ WholeWord source call.range ∧
      (∃ digits, EndsWord source exponent.range digits) ∧ ¬WholeWord source exponent.range := by
  intro text source call exponent drawn
  have hitems : drawn.items = [.edit call, .edit exponent] := by decide +kernel
  have hends : ∀ e, .edit e ∈ drawn.items → (∃ digits, EndsWord source e.range digits) ∧
      (WholeWord source e.range ↔
        (source.take e.range.start).getLast?.any isDigit = false) := by
    intro e he
    obtain ⟨other, hshows, hword⟩ :=
      (references_end_words source (Stream.gives_draw ⟨[]⟩ _)).2 e he
    rcases hshows with ⟨-, rfl⟩ | ⟨i, d, -, -, hd, -⟩
    · exact hword
    · cases hd
  have hcall := hends call (by rw [hitems]; exact List.mem_cons_self ..)
  have hexponent := hends exponent (by rw [hitems]; exact List.mem_of_mem_getLast? rfl)
  exact ⟨hitems, hcall.2.mpr (by decide +kernel), hexponent.1,
    fun h => absurd (hexponent.2.mp h) (by decide +kernel)⟩

/-- A rename of `e5` that writes into the number `1e5`. -/
theorem reference_inside_word :
    let text := "e5(); 1e5;"
    let source := Utf8.encode text
    let exponent : LocatedEdit := ⟨.str "a", ⟨7, 9, by decide⟩, "f"⟩
    ⟨.identifier, 7, Utf8.encode "e5"⟩ ∈ Token.scan source ∧
      .edit exponent ∈ ((renamer.steps ⟨.str "a", text⟩ 0 (.str "f")).draw ⟨[]⟩ none).items ∧
      ¬WholeWord source exponent.range := by
  refine ⟨by decide +kernel, by decide +kernel, fun h => ?_⟩
  exact absurd (h.1 0x31 (by decide +kernel)).2 (by decide)

end Reference

end RenameServer
