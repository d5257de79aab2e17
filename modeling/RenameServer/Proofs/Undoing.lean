import RenameServer.Proofs.Applying
import RenameServer.Proofs.Occurrences
import RenameServer.Proofs.Relocation

/-!
Renaming a variable to a fresh name and back. In the new text the variables with
the fresh name are the occurrences of the old one, each at its new place, and
the scopes that share it are the same. So the way back writes the old name over
exactly what the way there has written.
-/
namespace RenameServer.Variable

open Utf8 (Bytes encodeChars)
open Respelling Splice Strategy

/-! ### The order of tokens after edits -/

/-- Where tokens start and stop, no edit of tokens is in the middle. -/
theorem clear_of_bound {spell : Token → Option String} {base limit : Nat} {tokens : List Token}
    (h : Apart base limit tokens) {o : Nat} (ho : o ∈ Scopes.bounds tokens) :
    Clear (edits spell tokens) o := by
  intro e he
  obtain ⟨t, ht, hedit⟩ := List.mem_filterMap.mp he
  obtain ⟨name, -, rfl⟩ := Option.map_eq_some_iff.mp hedit
  obtain ⟨u, hu, hbound⟩ := ho
  have hbefore := h.bounds u hu
  have hrange : t.range.start = t.start ∧ t.range.stop = t.stop := ⟨rfl, rfl⟩
  simp only [hrange]
  rcases Token.stop_le_or_eq h hu ht with hle | hle | rfl
  · left
    rcases hbound with rfl | rfl <;> omega
  · right
    rcases hbound with rfl | rfl <;> omega
  · rcases hbound with rfl | rfl
    · exact .inl (Nat.le_refl _)
    · exact .inr (Nat.le_refl _)

/-- New spellings leave the tokens in order. -/
theorem strictMonoOn_shift {spell : Token → Option String} (hspell : KeepsKinds spell)
    (source : Bytes) :
    StrictMonoOn (shift (edits spell (Token.scan source))) (Scopes.bounds (Token.scan source)) := by
  have hapart := apart_scan source
  intro a ha b hb hab
  refine shiftFrom_lt hapart.within ?_ (clear_of_bound hapart ha) (clear_of_bound hapart hb)
    (Nat.zero_le a) hab 0
  intro e he
  obtain ⟨t, -, hedit⟩ := List.mem_filterMap.mp he
  obtain ⟨name, hname, rfl⟩ := Option.map_eq_some_iff.mp hedit
  exact (hspell t name hname).2.ne_nil

/-! ### The name of a variable -/

theorem isIdentifier_of_isName {name : String} (h : Lexeme.IsName (Utf8.encode name)) :
    Name.isIdentifier name = true := by
  obtain ⟨b, rest, hbytes, hb, hrest⟩ := h
  rw [Name.isIdentifier, hbytes, Bool.and_eq_true, List.all_eq_true]
  exact ⟨hb, hrest⟩

/-- A variable of a text is a dollar sign and a name. -/
theorem value_eq_bareName {text : String} {t : Token} (ht : t ∈ Token.scan (Utf8.encode text))
    (hkind : t.kind = .variable) :
    t.value = Utf8.encode ("$" ++ bareName t.name) ∧ Name.isIdentifier (bareName t.name) = true := by
  have hspelled := (apart_scan _).spelled t ht
  rw [hkind] at hspelled
  obtain ⟨bytes, hvalue, hname⟩ := hspelled
  rw [Utf8.encode_eq_encodeChars] at ht
  obtain ⟨p, v, x, -, -, hchars⟩ := Token.inText_of_mem_scan ht
  rw [hvalue] at hchars
  obtain ⟨c, rest, rfl⟩ : ∃ c rest, v = c :: rest := by
    cases v with
    | nil => cases hchars
    | cons c rest => exact ⟨c, rest, rfl⟩
  have hchar := Lexeme.encodeChar_of_ascii hchars (by decide)
  obtain rfl : c = '$' := by
    apply Utf8.mem_encodeChar_ascii (d := '$') (by decide)
    rw [hchar]
    exact List.mem_singleton_self _
  have hrest : encodeChars rest = bytes := by
    rw [Utf8.encodeChars_cons, hchar] at hchars
    exact (List.cons.inj hchars).2
  have hbare : bareName t.name = String.ofList rest := by
    rw [Token.name, hvalue, ← hchars, Utf8.lossy, Utf8.decodeLossy_encodeChars, bareName,
      String.toList_ofList]
    rfl
  rw [hbare, encode_dollar, Utf8.encode_ofList, hrest]
  refine ⟨hvalue, isIdentifier_of_isName ?_⟩
  rw [Utf8.encode_ofList, hrest]
  exact hname

/-! ### There and back -/

/-- The new spelling of the occurrences of a variable. -/
def newSpelling (tokens : List Token) (target : Token) (name : String) : Token → Option String :=
  mark (fun t => t ∈ occurrences tokens target) ("$" ++ name)

theorem edits_newSpelling (tokens : List Token) (target : Token) (name : String) :
    edits (newSpelling tokens target name) tokens =
      (occurrences tokens target).map fun t => ⟨t.range, "$" ++ name⟩ := by
  have hfilter : tokens.filter (fun t => t ∈ occurrences tokens target) =
      occurrences tokens target := by
    apply List.filter_congr
    intro t ht
    simp only [occurrences, List.mem_filter, ht, true_and, Bool.decide_eq_true]
  rw [newSpelling, edits_mark, hfilter]

variable {s : Source} {offset : Int} {newName : Json} {target : Token} {name : String}

theorem Renames.safe (h : Renames s offset newName target name) :
    Safe (newSpelling s.tokens target name) := by
  refine (writes_mark h.under h.valid.1 fun t ht => ?_).safe
  obtain ⟨-, hfound⟩ := List.mem_filter.mp (of_decide_eq_true ht)
  obtain ⟨hkind, hvalue, -⟩ := of_decide_eq_true hfound
  exact ⟨hkind, hvalue⟩

theorem Renames.value_target (h : Renames s offset newName target name) :
    value (newSpelling s.tokens target name) target = Utf8.encode ("$" ++ name) := by
  obtain ⟨hkind, hmem⟩ := kind_of_at? h.under
  exact value_of_some (if_pos (decide_eq_true (mem_occurrences_self hmem hkind)))

/-- No variable has the new name yet. -/
def Fresh (s : Source) (name : String) : Prop :=
  ∀ t ∈ s.tokens, t.kind = .variable → t.value ≠ Utf8.encode ("$" ++ name)

/-- A fresh name keeps the occurrences apart from other variables. -/
theorem Renames.keepsApart (h : Renames s offset newName target name) (hfresh : Fresh s name) :
    KeepsApart (newSpelling s.tokens target name) s.tokens target where
  common := by
    intro t ht
    rw [h.value_target]
    exact value_of_some (if_pos (decide_eq_true ht))
  other := by
    intro t ht hkind hvalue
    by_cases hoccurrence : t ∈ occurrences s.tokens target
    · obtain ⟨-, hfound⟩ := List.mem_filter.mp hoccurrence
      exact (of_decide_eq_true hfound).2.1
    · have hkept : value (newSpelling s.tokens target name) t = t.value :=
        value_of_none (if_neg (by simpa using hoccurrence))
      rw [hkept, h.value_target] at hvalue
      exact absurd hvalue (hfresh t ht hkind)

/-- A rename gives the edits of the new spelling and nothing else. -/
theorem Renames.draws_edits (h : Renames s offset newName target name) (w : Workspace) :
    (steps s offset newName).Draws w
      ((edits (newSpelling s.tokens target name) s.tokens).map (located s.uri)) := by
  have hwritings : writings s target name =
      (edits (newSpelling s.tokens target name) s.tokens).map (located s.uri) := by
    rw [edits_newSpelling, List.map_map]
    rfl
  rw [← hwritings]
  exact h.draws

theorem thisWord_eq : thisWord = Utf8.encode ("$" ++ "this") := by decide

theorem encode_ne_thisWord {name : String} (h : name ≠ "this") :
    Utf8.encode ("$" ++ name) ≠ thisWord := by
  intro hsame
  rw [thisWord_eq, encode_dollar, encode_dollar] at hsame
  have hdecoded := congrArg Utf8.decode (List.cons.inj hsame).2
  rw [Utf8.decode_encode, Utf8.decode_encode] at hdecoded
  exact h (Except.ok.inj hdecoded)

/-- The tokens of the new text. -/
theorem Renames.tokens_result (h : Renames s offset newName target name) {result : String}
    (hresult : Utf8.encode result =
      splice (Utf8.encode s.text) (edits (newSpelling s.tokens target name) s.tokens))
    (uri : Json) :
    Source.tokens ⟨uri, result⟩ = s.tokens.map (respell (newSpelling s.tokens target name)
      (shift (edits (newSpelling s.tokens target name) s.tokens))) := by
  rw [Source.tokens, hresult]
  exact scan_splice h.safe.keepsKinds (Utf8.encode s.text)

/-- In the new text the variable can get its old name back, and its occurrences are
those that got the new one. -/
theorem Renames.back (h : Renames s offset newName target name) (hfresh : Fresh s name)
    {result : String}
    (hresult : Utf8.encode result =
      splice (Utf8.encode s.text) (edits (newSpelling s.tokens target name) s.tokens))
    (uri : Json) :
    let spell := newSpelling s.tokens target name
    let place := shift (edits spell s.tokens)
    let x := bareName target.name
    Renames ⟨uri, result⟩ (place target.start) (.str x) (respell spell place target) x ∧
      occurrences (Source.tokens ⟨uri, result⟩) (respell spell place target) =
        (occurrences s.tokens target).map (respell spell place) := by
  intro spell place x
  obtain ⟨hkind, hmem⟩ := kind_of_at? h.under
  obtain ⟨hvalue, hname⟩ := value_eq_bareName hmem hkind
  have htokens := h.tokens_result hresult uri
  have hthere : respell spell place target ∈ Source.tokens ⟨uri, result⟩ := by
    rw [htokens]
    exact List.mem_map_of_mem hmem
  have hcursor := Token.at?_start (apart_scan (Utf8.encode result)) hthere
  refine ⟨⟨?_, ?_, ⟨x, rfl, bareName_of_isIdentifier hname⟩, hname, ?_⟩, ?_⟩
  · rw [Scopes.respell_kind, hkind] at hcursor
    exact hcursor
  · have hread : (respell spell place target).value = Utf8.encode ("$" ++ name) := h.value_target
    rw [hread]
    exact encode_ne_thisWord h.valid.2
  · intro hthis
    apply h.ne_this
    rw [hvalue, thisWord_eq, ← hthis]
  · rw [htokens]
    exact occurrences_respell (apart_scan _) (fun t ht => h.safe.carried ht)
      (strictMonoOn_shift h.safe.keepsKinds _) hmem (h.keepsApart hfresh)

/-- The bytes of a source between the ends of a token. -/
theorem take_drop_token {source : Bytes} {t : Token} (ht : t ∈ Token.scan source) :
    (source.drop t.start).take (t.stop - t.start) = t.value := by
  obtain ⟨l, r, hsource, hstart, -⟩ := Token.inBytes_of_mem_scan ht
  have hlength : t.stop - t.start = t.value.length := Nat.add_sub_cancel_left ..
  rw [hlength, ← hstart, Nat.zero_add, hsource, List.drop_left, List.take_left]

/-- The way back writes the old name over what the way there has written. -/
theorem Renames.draws_back (h : Renames s offset newName target name) (hfresh : Fresh s name)
    {result : String}
    (hresult : Utf8.encode result =
      splice (Utf8.encode s.text) (edits (newSpelling s.tokens target name) s.tokens))
    (uri : Json) (w : Workspace) :
    let es := edits (newSpelling s.tokens target name) s.tokens
    let x := bareName target.name
    (steps ⟨uri, result⟩ (shift es target.start) (.str x)).Draws w
      ((es.map (undone (shift es) ("$" ++ x))).map (located uri)) := by
  intro es x
  obtain ⟨hback, hoccurrences⟩ := h.back hfresh hresult uri
  have hundone : ∀ place, es.map (undone place ("$" ++ x)) =
      (occurrences s.tokens target).map fun t =>
        undone place ("$" ++ x) ⟨t.range, "$" ++ name⟩ := by
    intro place
    have hes : es = (occurrences s.tokens target).map fun t => ⟨t.range, "$" ++ name⟩ :=
      edits_newSpelling ..
    rw [hes, List.map_map]
    rfl
  have hedits : edits (newSpelling (Source.tokens ⟨uri, result⟩)
      (respell (newSpelling s.tokens target name) (shift es) target) x)
      (Source.tokens ⟨uri, result⟩) = es.map (undone (shift es) ("$" ++ x)) := by
    rw [edits_newSpelling (Source.tokens ⟨uri, result⟩), hoccurrences, List.map_map, hundone]
    apply List.map_congr_left
    intro t ht
    have hvalue := (h.keepsApart hfresh).common t ht
    rw [h.value_target] at hvalue
    simp only [Function.comp_apply, undone, Token.range, Token.stop, respell, hvalue]
    rfl
  rw [← hedits]
  exact hback.draws_edits w

/-- Renaming a variable to a fresh name is undone by renaming it back: both renames
give edits only, and the second edits restore the text. -/
theorem rename_undone (w w' : Workspace) {u text : String} {offset : Int} {newName : Json}
    {target : Token} {name : String} (h : Renames ⟨.str u, text⟩ offset newName target name)
    (hfresh : Fresh ⟨.str u, text⟩ name) :
    let x := bareName target.name
    target.value = Utf8.encode ("$" ++ x) ∧ ∃ es es' : List TextEdit, ∃ result : String,
      (steps ⟨.str u, text⟩ offset newName).Draws w (es.map (located (.str u))) ∧
      Utf8.encode result = splice (Utf8.encode text) es ∧
      (steps ⟨.str u, result⟩ (shift es target.start) (.str x)).Draws w'
        (es'.map (located (.str u))) ∧
      splice (Utf8.encode result) es' = Utf8.encode text := by
  intro x
  obtain ⟨hkind, hmem⟩ := kind_of_at? h.under
  obtain ⟨hvalue, -⟩ := value_eq_bareName hmem hkind
  obtain ⟨result, -, hresult⟩ := Applying.exists_changed_text h.safe.keepsKinds text
  refine ⟨hvalue, _, _, result, h.draws_edits w, hresult, h.draws_back hfresh hresult _ w', ?_⟩
  have hwithin : Within 0 (0 + (Utf8.encode text).length)
      (edits (newSpelling (Source.tokens ⟨.str u, text⟩) target name)
        (Token.scan (Utf8.encode text))) := by
    rw [Nat.zero_add]
    exact (apart_scan (Utf8.encode text)).within
  rw [hresult]
  refine spliceFrom_undone (Utf8.encode text) hwithin ?_ 0
  intro e he
  rw [Source.tokens, edits_newSpelling] at he
  obtain ⟨t, ht, rfl⟩ := List.mem_map.mp he
  obtain ⟨hscan, hfound⟩ := List.mem_filter.mp ht
  have hsame : t.value = target.value := (of_decide_eq_true hfound).2.1
  rw [Nat.sub_zero, ← hvalue, ← hsame]
  exact take_drop_token hscan

/-- A variable in a literal and in the closure that captures it, from the latter. -/
theorem rename_undone_closure :
    let text := "\"$a\"; function () use ($a) { $a; };"
    let target : Token := ⟨.variable, 29, Utf8.encode "$a"⟩
    Renames ⟨.str "u", text⟩ 30 (.str "$long") target "long" ∧ Fresh ⟨.str "u", text⟩ "long" ∧
      ∃ es es' : List TextEdit, ∃ result : String,
        (steps ⟨.str "u", text⟩ 30 (.str "$long")).Draws ⟨[]⟩ (es.map (located (.str "u"))) ∧
        Utf8.encode result = splice (Utf8.encode text) es ∧
        (steps ⟨.str "u", result⟩ (shift es 29) (.str "a")).Draws ⟨[]⟩
          (es'.map (located (.str "u"))) ∧
        splice (Utf8.encode result) es' = Utf8.encode text := by
  intro text target
  have hrenames : Renames ⟨.str "u", text⟩ 30 (.str "$long") target "long" :=
    ⟨by decide +kernel, by decide, ⟨"$long", rfl, by decide⟩, by decide, by decide⟩
  have hfresh : Fresh ⟨.str "u", text⟩ "long" := by
    unfold Fresh
    decide +kernel
  obtain ⟨-, hundone⟩ := rename_undone ⟨[]⟩ ⟨[]⟩ hrenames hfresh
  have hname : bareName target.name = "a" := by decide +kernel
  rw [hname] at hundone
  exact ⟨hrenames, hfresh, hundone⟩

end RenameServer.Variable
