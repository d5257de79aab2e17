import RenameServer.Proofs.Occurrences

/-!
The range that is announced at an offset and the edits of a rename there. Where
nothing is announced, the rename fails for want of a renamer. A rename that
writes anything writes what was announced, with one exception: where a name and
a variable touch, the variable is announced, but `this` is no new name for it
and may be one for the name.
-/
namespace RenameServer

/-- Tokens of one source with the same range are the same token. -/
theorem Token.eq_of_range {source : Utf8.Bytes} {t u : Token} (ht : t ∈ scan source)
    (hu : u ∈ scan source) (h : t.range = u.range) : t = u := by
  have hapart := Respelling.apart_scan source
  have hstart : t.start = u.start := congrArg ByteRange.start h
  apply eq_of_contains hapart ht hu (contains_start hapart ht)
  rw [hstart]
  exact contains_start hapart hu

namespace Reference

variable {w : Workspace} {s : Source} {offset : Int} {newName : Json} {target : Token}
  {name : String}

/-- What is found elsewhere is not in the document of the cursor. -/
theorem uri_of_elsewhere {world : Nat → Workspace} {p q : Nat} {uri : Json}
    {spelling : Utf8.Bytes} {documents : List Document} {ranges : List LocatedRange}
    (h : (elsewhere uri spelling documents).Gives world p q ranges) :
    ∀ r ∈ ranges, r.uri.same uri = false := by
  induction documents generalizing p ranges with
  | nil =>
    cases h
    exact List.forall_mem_nil _
  | cons d rest ih =>
    rcases elsewhere_cases uri spelling d rest with
      ⟨-, heq⟩ | ⟨hother, ⟨text, -, heq⟩ | ⟨fault, heq⟩⟩
    · rw [heq] at h
      exact ih h
    · rw [heq] at h
      obtain ⟨i, ys, -, hys, rfl⟩ := h.of_prepend
      intro r hr
      rcases List.mem_append.mp hr with hr | hr
      · obtain ⟨t, -, rfl⟩ := List.mem_map.mp hr
        exact Bool.eq_false_iff.mpr hother
      · exact ih hys r hr
    · rw [heq] at h
      cases h
      exact List.forall_mem_nil _

/-- The references in the document of the cursor come first, those elsewhere after them. -/
theorem Renames.exists_items (h : Renames s offset newName target name) (w : Workspace) :
    ∃ others : List LocatedRange, (∀ r ∈ others, r.uri.same s.uri = false) ∧
      ((steps s offset newName).draw w none).items =
        (matching s.uri target.value s.tokens ++ others).map (write name) := by
  have hgives := Stream.gives_draw w (steps s offset newName)
  rw [h.steps_eq] at hgives ⊢
  obtain ⟨ranges, hranges, hitems⟩ := hgives.of_map
  obtain ⟨i, others, -, hlook, rfl⟩ := hranges.of_prepend
  cases hlook with
  | look hothers => exact ⟨others, uri_of_elsewhere hothers, hitems⟩

/-- The name under the cursor gets the new name. -/
theorem Renames.mem_items (h : Renames s offset newName target name) (w : Workspace) :
    .edit ⟨s.uri, target.range, name⟩ ∈ ((steps s offset newName).draw w none).items := by
  obtain ⟨others, -, hitems⟩ := h.exists_items w
  obtain ⟨hkind, hmem⟩ := Strategy.kind_of_at? h.under
  have hmatch : target ∈ s.tokens.filter fun t => t.kind = .identifier ∧
      Token.lowerBytes t.value = Token.lowerBytes target.value :=
    List.mem_filter.mpr ⟨hmem, by simp [hkind]⟩
  rw [hitems, List.map_append]
  apply List.mem_append_left
  exact List.mem_map.mpr ⟨⟨s.uri, target.range⟩, List.mem_map.mpr ⟨target, hmatch, rfl⟩, rfl⟩

/-- What is written in the document of the cursor is written to names. -/
theorem Renames.kind_of_mem (h : Renames s offset newName target name) {u : String}
    (hs : s.uri = .str u) {e : LocatedEdit} (he : e.uri = .str u)
    (hmem : .edit e ∈ ((steps s offset newName).draw w none).items) :
    ∃ t ∈ s.tokens, t.kind = .identifier ∧ e.range = t.range := by
  obtain ⟨others, hothers, hitems⟩ := h.exists_items w
  rw [hitems] at hmem
  obtain ⟨r, hr, hwrite⟩ := List.mem_map.mp hmem
  obtain rfl := Step.edit.inj hwrite
  rcases List.mem_append.mp hr with hr | hr
  · obtain ⟨t, ht, hmatch, rfl, -⟩ := exists_of_mem_matching hr
    exact ⟨t, ht, (of_decide_eq_true hmatch).1, rfl⟩
  · have hother := hothers r hr
    have hsame : r.uri.same s.uri = true := by
      rw [hs]
      exact Json.same_str.mpr he
    rw [hsame] at hother
    cases hother

end Reference

namespace Chain

variable {w : Workspace} {s : Source} {offset : Int} {newName : Json}

/-- A variable is under the cursor, but `this` is no new name for it. -/
def Diverted (s : Source) (offset : Int) (newName : Json) : Prop :=
  newName = .str "this" ∧ (Variable.range? s offset).isSome = true

theorem range?_standard (s : Source) (offset : Int) :
    standard.range? s offset = (Variable.range? s offset).or (Reference.range? s offset) := by
  have hchain : standard.range? s offset = range? [Variable.renamer, Reference.renamer] s offset :=
    rfl
  rw [hchain, range?, List.findSome?_cons]
  cases hvariable : Variable.renamer.range? s offset with
  | none =>
    have hnone : Variable.range? s offset = none := hvariable
    rw [hnone, Option.none_or]
    cases hreference : Reference.range? s offset with
    | none => simp [Reference.renamer, hreference]
    | some range => simp [Reference.renamer, hreference]
  | some range =>
    have hsome : Variable.range? s offset = some range := hvariable
    rw [hsome, Option.some_or]

/-- Where nothing is announced, there is no renamer, whatever the new name is. -/
theorem steps_of_range?_none (h : standard.range? s offset = none) (newName : Json) :
    ∃ f, standard.steps s offset newName = .item (.failure f) .done ∧ f.kind = .noRenamer ∧
      ∃ text, f.message = .plain text := by
  rw [range?_standard, Option.or_eq_none_iff] at h
  have hvariable : Variable.renamer.range? s offset = none := h.1
  have hreference : Reference.renamer.range? s offset = none := h.2
  have hsteps : standard.steps s offset newName =
      delegate s offset newName none [Variable.renamer, Reference.renamer] := rfl
  rw [hsteps, delegate, hvariable, delegate, hreference, delegate]
  exact ⟨_, rfl, rfl, _, rfl⟩

theorem draws_of_range?_none (h : standard.range? s offset = none) (newName : Json) :
    ∃ f, (standard.steps s offset newName).Draws w [.failure f] ∧ f.kind = .noRenamer := by
  obtain ⟨f, hsteps, hkind, -⟩ := steps_of_range?_none h newName
  rw [hsteps]
  exact ⟨f, ⟨rfl, rfl⟩, hkind⟩

/-- A new name for a name is one for a variable too, except for `this`. -/
theorem renames_variable {target v : Token} {name : String}
    (h : Reference.Renames s offset newName target name)
    (hv : Token.at? s.tokens offset .variable = some v) (hthis : v.value ≠ Variable.thisWord)
    (hname : name ≠ "this") : Variable.Renames s offset newName v name := by
  exact ⟨hv, hthis, ⟨name, h.given, Variable.bareName_of_isIdentifier h.valid.1⟩, h.valid.1, hname⟩

theorem exists_of_range? {R : ByteRange} (h : Variable.range? s offset = some R) :
    ∃ v, Token.at? s.tokens offset .variable = some v ∧ v.value ≠ Variable.thisWord ∧
      v.range = R := by
  unfold Variable.range? at h
  split at h
  · next v hv =>
    split at h
    · cases h
    · next hthis => exact ⟨v, hv, hthis, Option.some.inj h⟩
  · cases h

/-- Something is written to a range of the source. -/
def WritesTo (s : Source) (items : List Step) (R : ByteRange) : Prop :=
  ∃ e, .edit e ∈ items ∧ e.uri = s.uri ∧ e.range = R

theorem writesTo_variable {v : Token} {name : String}
    (h : Variable.Renames s offset newName v name) (w : Workspace) :
    standard.range? s offset = some v.range ∧
      WritesTo s ((standard.steps s offset newName).draw w none).items v.range := by
  obtain ⟨hkind, hmem⟩ := Strategy.kind_of_at? h.under
  have hself := Variable.mem_occurrences_self hmem hkind
  refine ⟨?_, ⟨s.uri, v.range, "$" ++ name⟩, ?_, rfl, rfl⟩
  · rw [range?_standard, h.range?, Option.some_or]
  · rw [(draws_variable (w := w) h hself).items]
    exact List.mem_map_of_mem hself

theorem not_diverted_of_renames {v : Token} {name : String}
    (h : Variable.Renames s offset newName v name) : ¬Diverted s offset newName := by
  rintro ⟨hthis, -⟩
  obtain ⟨given, hgiven, hbare⟩ := h.given
  obtain rfl := Json.str.inj (hgiven.symm.trans hthis)
  exact h.valid.2 hbare.symm

/-- Where a variable is announced, no name has its range. -/
theorem not_writesTo_variable {u : String} (hs : s.uri = .str u) {target v : Token} {name : String}
    (h : Reference.Renames s offset newName target name)
    (hv : Token.at? s.tokens offset .variable = some v) :
    ¬WritesTo s ((Reference.steps s offset newName).draw w none).items v.range := by
  rintro ⟨e, he, huri, hrange⟩
  obtain ⟨t, ht, hkind, hsame⟩ := h.kind_of_mem hs (huri.trans hs) he
  obtain ⟨hvariable, hmem⟩ := Strategy.kind_of_at? hv
  obtain rfl := Token.eq_of_range ht hmem (hsame.symm.trans hrange)
  rw [hvariable] at hkind
  cases hkind

theorem writesTo_reference {target : Token} {name : String}
    (h : Reference.Renames s offset newName target name) (w : Workspace) :
    WritesTo s ((Reference.steps s offset newName).draw w none).items target.range :=
  ⟨_, h.mem_items w, rfl, rfl⟩

/-- What is announced is renamed, or else a variable is announced that cannot get
the name, and a name that touches it does. -/
theorem rename_announced (w : Workspace) (u text : String) (offset : Int) (newName : Json) :
    let s : Source := ⟨.str u, text⟩
    let drawn := (standard.steps s offset newName).draw w none
    (standard.range? s offset = none →
      drawn.fault = none ∧ ∃ f, drawn.items = [.failure f] ∧ f.kind = .noRenamer) ∧
    ((∃ e, .edit e ∈ drawn.items) → ∃ R, standard.range? s offset = some R ∧
      (WritesTo s drawn.items R ↔ ¬Diverted s offset newName) ∧
      (Diverted s offset newName →
        ∃ R', Reference.range? s offset = some R' ∧ WritesTo s drawn.items R')) := by
  intro s drawn
  constructor
  · intro hnone
    obtain ⟨f, hdraws, hkind⟩ := draws_of_range?_none (w := w) hnone newName
    exact ⟨hdraws.fault, f, hdraws.items, hkind⟩
  · rintro ⟨e, he⟩
    obtain ⟨r, hr, hitems⟩ := exists_of_edit_mem he
    have hdrawn : drawn.items = ((r.steps s offset newName).draw w none).items := hitems
    rw [hdrawn] at he
    simp only [List.mem_cons, List.not_mem_nil, or_false] at hr
    rcases hr with rfl | rfl
    · obtain ⟨v, name, h⟩ := Variable.renames_of_edit_mem he
      have hstraight := not_diverted_of_renames h
      obtain ⟨hrange, hwrites⟩ := writesTo_variable h w
      exact ⟨v.range, hrange, iff_of_true hwrites hstraight, fun hd => absurd hd hstraight⟩
    · obtain ⟨target, name, h⟩ := Reference.renames_of_edit_mem he
      have htarget : WritesTo s drawn.items target.range := hdrawn ▸ writesTo_reference h w
      cases hvariable : Variable.range? s offset with
      | none =>
        have hstraight : ¬Diverted s offset newName := by
          rintro ⟨-, hsome⟩
          rw [hvariable] at hsome
          cases hsome
        refine ⟨target.range, ?_, iff_of_true htarget hstraight, fun hd => absurd hd hstraight⟩
        rw [range?_standard, hvariable, Option.none_or, h.range?]
      | some R =>
        obtain ⟨v, hv, hthis, rfl⟩ := exists_of_range? hvariable
        by_cases hname : name = "this"
        · have hdiverted : Diverted s offset newName := by
            refine ⟨hname ▸ h.given, ?_⟩
            rw [hvariable]
            rfl
          have hspared : ¬WritesTo s drawn.items v.range :=
            hdrawn ▸ not_writesTo_variable (w := w) (u := u) rfl h hv
          refine ⟨v.range, ?_, iff_of_false hspared (not_not_intro hdiverted), fun _ =>
            ⟨target.range, h.range?, htarget⟩⟩
          rw [range?_standard, hvariable, Option.some_or]
        · have hrenames := renames_variable h hv hthis hname
          have hstraight := not_diverted_of_renames hrenames
          obtain ⟨hrange, hwrites⟩ := writesTo_variable hrenames w
          exact ⟨v.range, hrange, iff_of_true hwrites hstraight, fun hd => absurd hd hstraight⟩

/-- A name in front of a variable, with the cursor between them. -/
theorem rename_announced_touching :
    let s : Source := ⟨.str "a", "foo$bar"⟩
    let items := ((standard.steps s 3 (.str "baz")).draw ⟨[]⟩ none).items
    (∃ e, .edit e ∈ items) ∧ ¬Diverted s 3 (.str "baz") ∧
      ∃ R, standard.range? s 3 = some R ∧ WritesTo s items R := by
  intro s items
  have hedit : ∃ e, .edit e ∈ items := ⟨⟨.str "a", ⟨3, 7, by decide⟩, "$baz"⟩, by decide +kernel⟩
  have hstraight : ¬Diverted s 3 (.str "baz") := fun h => absurd (Json.str.inj h.1) (by decide)
  obtain ⟨R, hrange, hwrites, -⟩ := (rename_announced ⟨[]⟩ "a" "foo$bar" 3 (.str "baz")).2 hedit
  exact ⟨hedit, hstraight, R, hrange, hwrites.mpr hstraight⟩

/-- The variable is announced, and the name in front of it becomes `this`. -/
theorem rename_diverted :
    let s : Source := ⟨.str "a", "foo$bar"⟩
    standard.range? s 3 = some ⟨3, 7, by decide⟩ ∧
      ((standard.steps s 3 (.str "this")).draw ⟨[]⟩ none).items =
        [.edit ⟨.str "a", ⟨0, 3, by decide⟩, "this"⟩] := by
  decide +kernel

end Chain

end RenameServer
