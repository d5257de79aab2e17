import RenameServer.Proofs.Announcing
import RenameServer.Proofs.LineEndTokens
import RenameServer.Proofs.MovedEdits
import RenameServer.Proofs.Outcomes
import RenameServer.Proofs.Relocation
import RenameServer.Proofs.Tidiness

/-!
Two sources of one document that have the same tokens at other offsets, in the
same order. A cursor that moves along is on the same token, the strategies give
the same ranges and edits for it up to the move, and a chain commits to the same
strategy. Only what a failure says may differ.
-/
namespace RenameServer

open LineEnd Respelling

/-- The tokens of the second source are those of the first one, moved. -/
structure Source.Moves (f : Nat → Nat) (s s' : Source) : Prop where
  mono : StrictMono f
  uri : s'.uri = s.uri
  tokens : s'.tokens = s.tokens.map (move f)
  stop : ∀ t ∈ s.tokens, f t.stop = (move f t).stop

/-- The edit that writes a name at a token. -/
def Token.edit (uri : Json) (name : String) (t : Token) : LocatedEdit := ⟨uri, t.range, name⟩

namespace Source.Moves

variable {f : Nat → Nat} {s s' : Source} (h : Moves f s s')
include h

theorem range_move {t : Token} (ht : t ∈ s.tokens) : (move f t).range = t.range.moved h.mono := by
  have hstop := h.stop t ht
  simp only [Token.range, ByteRange.moved, hstop]
  rfl

theorem contains_move {t : Token} (ht : t ∈ s.tokens) (o : Nat) :
    (move f t).contains (f o : Nat) = t.contains o := by
  have hstart : ((move f t).start : Int) ≤ (f o : Nat) ↔ (t.start : Int) ≤ o := by
    rw [Int.ofNat_le, Int.ofNat_le]
    exact h.mono.le_iff_le
  have hstop : ((f o : Nat) : Int) < (move f t).stop ↔ (o : Int) < t.stop := by
    rw [← h.stop t ht, Int.ofNat_lt, Int.ofNat_lt]
    exact h.mono.lt_iff_lt
  simp only [Token.contains, hstart, hstop]

/-- A cursor that moves along is on the same token. -/
theorem at?_move (o : Nat) (kind : Token.Kind) :
    Token.at? s'.tokens (f o : Nat) kind = (Token.at? s.tokens o kind).map (move f) := by
  have hcandidates : (s.tokens.map (move f)).filter (fun t => t.kind = kind) =
      (s.tokens.filter fun t => t.kind = kind).map (move f) := List.filter_map
  have hfind : ((s.tokens.filter fun t => t.kind = kind).map (move f)).find?
      (fun t => t.contains (f o : Nat)) =
      ((s.tokens.filter fun t => t.kind = kind).find? fun t => t.contains o).map (move f) := by
    rw [List.find?_map]
    congr 1
    apply List.find?_congr
    intro t ht
    exact h.contains_move (List.mem_filter.mp ht).1 o
  have htouch : ((s.tokens.filter fun t => t.kind = kind).map (move f)).filter
      (fun t => (t.stop : Int) = (f o : Nat)) =
      ((s.tokens.filter fun t => t.kind = kind).filter fun t => (t.stop : Int) = o).map (move f) := by
    rw [List.filter_map]
    congr 1
    apply List.filter_congr
    intro t ht
    have hmem := (List.mem_filter.mp ht).1
    rw [Function.comp_apply, ← h.stop t hmem, decide_eq_decide, Int.ofNat_inj, Int.ofNat_inj]
    exact h.mono.injective.eq_iff
  rw [h.tokens, Token.at?, Token.at?, hcandidates, hfind, htouch, List.getLast?_map]
  cases (s.tokens.filter fun t => t.kind = kind).find? fun t => t.contains o with
  | none => rfl
  | some t => rfl

/-- A variable has the same occurrences. -/
theorem occurrences_move {target : Token} (htarget : target ∈ s.tokens) :
    Variable.occurrences s'.tokens (move f target) =
      (Variable.occurrences s.tokens target).map (move f) := by
  have hcarried : ∀ t ∈ s.tokens, Scopes.Carried (fun _ => none) f t :=
    fun t ht => ⟨(h.stop t ht).symm, .inl rfl⟩
  have hkept : Variable.KeepsApart (fun _ => none) s.tokens target := by
    refine ⟨fun t ht => ?_, fun t _ _ hvalue => hvalue⟩
    obtain ⟨-, hvalue, -⟩ := of_decide_eq_true (List.mem_filter.mp ht).2
    exact hvalue
  rw [h.tokens]
  exact Variable.occurrences_respell (apart_scan _) hcarried (h.mono.strictMonoOn _) htarget hkept

/-- A name has the same matches. -/
theorem filter_move (spelling : Utf8.Bytes) :
    s'.tokens.filter (Reference.isMatch spelling) =
      (s.tokens.filter (Reference.isMatch spelling)).map (move f) := by
  rw [h.tokens]
  exact List.filter_map

/-- The edits of tokens move with them. -/
theorem map_edit {u : String} (hu : s.uri = .str u) (name : String) (ts : List Token)
    (hts : ∀ t ∈ ts, t ∈ s.tokens) :
    (ts.map (Token.edit s.uri name)).map (LocatedEdit.movedAt h.mono u) =
      (ts.map (move f)).map (Token.edit s'.uri name) := by
  rw [List.map_map, List.map_map]
  apply List.map_congr_left
  intro t ht
  have hedit := LocatedEdit.movedAt_same h.mono (e := t.edit s.uri name) hu
  rw [Function.comp_apply, Function.comp_apply, hedit]
  simp only [Token.edit, h.range_move (hts t ht), h.uri, hu]

theorem variable_range? (o : Nat) :
    Variable.range? s' (f o : Nat) = (Variable.range? s o).map (ByteRange.moved h.mono) := by
  rw [Variable.range?, Variable.range?, h.at?_move]
  cases hat : Token.at? s.tokens o .variable with
  | none => rfl
  | some t =>
    have hrange := h.range_move (Strategy.kind_of_at? hat).2
    have hvalue : (move f t).value = t.value := rfl
    simp only [Option.map_some, hvalue, hrange]
    split <;> rfl

theorem reference_range? (o : Nat) :
    Reference.range? s' (f o : Nat) = (Reference.range? s o).map (ByteRange.moved h.mono) := by
  rw [Reference.range?, Reference.range?, h.at?_move]
  cases hat : Token.at? s.tokens o .identifier with
  | none => rfl
  | some t =>
    have hrange := h.range_move (Strategy.kind_of_at? hat).2
    have hname : (move f t).name = t.name := rfl
    simp only [Option.map_some, hname, hrange]
    split <;> rfl

end Source.Moves

/-! ### Streams that follow each other -/

/-- A step and what becomes of it when its edit is changed. -/
inductive Step.Follows (change : LocatedEdit → LocatedEdit) : Step → Step → Prop where
  | edit (e : LocatedEdit) : Follows change (.edit e) (.edit (change e))
  | failure (failure failure' : Failure) : Follows change (.failure failure) (.failure failure')

/-- Two drawn streams with changed edits in the second one. -/
structure Stream.Drawn.Follows (change : LocatedEdit → LocatedEdit) (d d' : Stream.Drawn Step) :
    Prop where
  items : List.Forall₂ (Step.Follows change) d.items d'.items
  fault : d'.fault = d.fault

namespace Stream.Drawn.Follows

variable {change : LocatedEdit → LocatedEdit}

theorem of_edits (es : List LocatedEdit) :
    List.Forall₂ (Step.Follows change) (es.map Step.edit) ((es.map change).map Step.edit) := by
  induction es with
  | nil => exact .nil
  | cons e rest ih => exact .cons (.edit e) ih

theorem of_list (change : LocatedEdit → LocatedEdit) (w w' : Workspace) (es : List LocatedEdit) :
    Follows change ((Stream.ofList (es.map Step.edit)).draw w none)
      ((Stream.ofList ((es.map change).map Step.edit)).draw w' none) := by
  have h := Stream.draws_ofList (w := w) (es.map Step.edit)
  have h' := Stream.draws_ofList (w := w') ((es.map change).map Step.edit)
  refine ⟨?_, by rw [h.fault, h'.fault]⟩
  rw [h.items, h'.items]
  exact of_edits es

theorem of_fail (w w' : Workspace) (message message' : String) (kind kind' : FailureKind) :
    Follows change ((Renamer.fail message kind).draw w none)
      ((Renamer.fail message' kind').draw w' none) :=
  ⟨.cons (.failure _ _) .nil, rfl⟩

end Stream.Drawn.Follows

namespace Reference

/-- The edit that writes a name at a range. -/
def editOf (name : String) (r : LocatedRange) : LocatedEdit := ⟨r.uri, r.range, name⟩

/-- What is found elsewhere depends on the documents only. -/
theorem draw_elsewhere (uri : Json) (spelling : Utf8.Bytes) (documents : List Document)
    (w w' : Workspace) :
    ((elsewhere uri spelling documents).draw w' none).items =
        ((elsewhere uri spelling documents).draw w none).items ∧
      ((elsewhere uri spelling documents).draw w' none).fault =
        ((elsewhere uri spelling documents).draw w none).fault := by
  induction documents with
  | nil => exact ⟨rfl, rfl⟩
  | cons d rest ih =>
    rcases elsewhere_cases uri spelling d rest with
      ⟨-, heq⟩ | ⟨-, ⟨text, -, heq⟩ | ⟨fault, heq⟩⟩
    · rw [heq]
      exact ih
    · obtain ⟨hitems, hfault⟩ := Stream.draw_prepend (w := w)
        (matching d.uri spelling (Source.tokens ⟨d.uri, text⟩)) (elsewhere uri spelling rest)
      obtain ⟨hitems', hfault'⟩ := Stream.draw_prepend (w := w')
        (matching d.uri spelling (Source.tokens ⟨d.uri, text⟩)) (elsewhere uri spelling rest)
      rw [heq]
      exact ⟨by rw [hitems, hitems', ih.1], by rw [hfault, hfault', ih.2]⟩
    · rw [heq]
      exact ⟨rfl, rfl⟩

/-- No range that is found elsewhere belongs to the document of the cursor. -/
theorem map_movedAt {f : Nat → Nat} (hf : StrictMono f) (name : String) {u : String}
    {spelling : Utf8.Bytes} {documents : List Document} {world : Nat → Workspace} {p q : Nat}
    {ranges : List LocatedRange}
    (h : (elsewhere (.str u) spelling documents).Gives world p q ranges) :
    (ranges.map (editOf name)).map (LocatedEdit.movedAt hf u) = ranges.map (editOf name) := by
  rw [List.map_map]
  apply List.map_congr_left
  intro r hr
  have hother := uri_of_elsewhere h r hr
  apply LocatedEdit.movedAt_other
  intro hsame
  have htrue : r.uri.same (.str u) = true := Json.same_str.mpr hsame
  rw [htrue] at hother
  cases hother

/-- The references of a name: first those in the document of the cursor. -/
theorem draw_find {s : Source} {offset : Int} {target : Token}
    (hat : Token.at? s.tokens offset .identifier = some target) (name : String) (w : Workspace) :
    (((find s offset).map (write name)).draw w none).items =
        ((s.tokens.filter (isMatch target.value)).map (Token.edit s.uri name) ++
          ((elsewhere s.uri target.value w.documents).draw w none).items.map
            (editOf name)).map Step.edit ∧
      (((find s offset).map (write name)).draw w none).fault =
        ((elsewhere s.uri target.value w.documents).draw w none).fault := by
  obtain ⟨hitems, hfault⟩ := Stream.draw_map (w := w) (write name) (find s offset)
  have hfind : find s offset = .prepend (matching s.uri target.value s.tokens)
      (.look fun w => elsewhere s.uri target.value w.documents) := by
    simp only [find, hat]
  obtain ⟨hfirst, hend⟩ := Stream.draw_prepend (w := w) (matching s.uri target.value s.tokens)
    (.look fun w => elsewhere s.uri target.value w.documents)
  rw [← hfind] at hfirst hend
  refine ⟨?_, hfault.trans hend⟩
  rw [hitems, hfirst, List.map_append, List.map_append, matching, List.map_map, List.map_map,
    List.map_map]
  rfl

end Reference

namespace Source.Moves

open Stream.Drawn.Follows

variable {f : Nat → Nat} {s s' : Source} (h : Moves f s s') {u : String} (hu : s.uri = .str u)
include h hu

/-- The variable strategy writes the same edits, moved. -/
theorem variable_follows (w w' : Workspace) (o : Nat) (newName : Json) :
    ((Variable.steps s o newName).draw w none).Follows (LocatedEdit.movedAt h.mono u)
      ((Variable.steps s' (f o : Nat) newName).draw w' none) := by
  unfold Variable.steps
  dsimp only
  rw [h.at?_move]
  cases hat : Token.at? s.tokens o .variable with
  | none => exact .of_fail ..
  | some target =>
    have hvalue : (move f target).value = target.value := rfl
    simp only [Option.map_some, hvalue]
    by_cases hthis : target.value = Variable.thisWord
    · rw [if_pos hthis, if_pos hthis]
      exact .of_fail ..
    · rw [if_neg hthis, if_neg hthis]
      cases newName with
      | str newName =>
        dsimp only
        split
        · exact .of_fail ..
        · have htarget := (Strategy.kind_of_at? hat).2
          have hmem : ∀ t ∈ Variable.occurrences s.tokens target, t ∈ s.tokens :=
            fun t ht => (List.mem_filter.mp ht).1
          have hlist := of_list (LocatedEdit.movedAt h.mono u) w w'
            ((Variable.occurrences s.tokens target).map
              (Token.edit s.uri ("$" ++ Variable.bareName newName)))
          rw [h.map_edit hu _ _ hmem, ← h.occurrences_move htarget, List.map_map, List.map_map]
            at hlist
          exact hlist
      | _ => exact ⟨.nil, rfl⟩

/-- The references of a name, in the document and elsewhere. -/
theorem found_follows {w w' : Workspace}
    (hw : ∀ spelling, Reference.elsewhere (.str u) spelling w'.documents =
      Reference.elsewhere (.str u) spelling w.documents) {o : Nat} {target : Token}
    (hat : Token.at? s.tokens o .identifier = some target)
    (hat' : Token.at? s'.tokens (f o : Nat) .identifier = some (move f target)) (name : String) :
    (((Reference.find s o).map (Reference.write name)).draw w none).Follows
      (LocatedEdit.movedAt h.mono u)
      (((Reference.find s' (f o : Nat)).map (Reference.write name)).draw w' none) := by
  obtain ⟨hitems, hfault⟩ := Reference.draw_find hat name w
  obtain ⟨hitems', hfault'⟩ := Reference.draw_find hat' name w'
  obtain ⟨hothers, hend⟩ := Reference.draw_elsewhere (.str u) target.value w.documents w w'
  have hvalue : (move f target).value = target.value := rfl
  rw [hu] at hfault hitems
  rw [h.uri, hu, hw, hvalue] at hfault' hitems'
  refine ⟨?_, by rw [hfault', hend, hfault]⟩
  have hhere := h.map_edit hu name (s.tokens.filter (Reference.isMatch target.value))
    fun t ht => (List.mem_filter.mp ht).1
  have hthere := Reference.map_movedAt h.mono name (Stream.gives_draw w
    (Reference.elsewhere (.str u) target.value w.documents))
  rw [← h.filter_move, h.uri, hu] at hhere
  rw [hothers, ← hhere, ← hthere, ← List.map_append] at hitems'
  rw [hitems, hitems']
  exact of_edits _

/-- The reference strategy does so, too, if it finds the same elsewhere. -/
theorem reference_follows {w w' : Workspace}
    (hw : ∀ spelling, Reference.elsewhere (.str u) spelling w'.documents =
      Reference.elsewhere (.str u) spelling w.documents) (o : Nat) (newName : Json) :
    ((Reference.steps s o newName).draw w none).Follows (LocatedEdit.movedAt h.mono u)
      ((Reference.steps s' (f o : Nat) newName).draw w' none) := by
  unfold Reference.steps
  rw [h.at?_move]
  cases hat : Token.at? s.tokens o .identifier with
  | none => exact .of_fail ..
  | some target =>
    have hname : (move f target).name = target.name := rfl
    simp only [Option.map_some, hname]
    by_cases hreserved : Name.isReserved target.name = true
    · rw [if_pos hreserved, if_pos hreserved]
      exact .of_fail ..
    · rw [if_neg hreserved, if_neg hreserved]
      cases newName with
      | str newName =>
        dsimp only
        split
        · exact .of_fail ..
        · have hat' := h.at?_move o .identifier
          rw [hat] at hat'
          exact h.found_follows hu hw hat hat' newName
      | _ => exact ⟨.nil, rfl⟩

end Source.Moves

namespace Chain

variable {change : LocatedEdit → LocatedEdit} {w w' : Workspace}

theorem passed_iff {d d' : Stream.Drawn Step} (h : d.Follows change d') : Passed d' ↔ Passed d := by
  obtain ⟨items, _, fault⟩ := d
  obtain ⟨items', _, fault'⟩ := d'
  obtain ⟨hitems, hfault⟩ := h
  unfold Passed
  rw [hfault]
  cases hitems with
  | nil => simp
  | cons hstep hrest =>
    cases hstep with
    | edit e => simp
    | failure failure failure' => simp

theorem commit_follows {name name' : String} {otherwise otherwise' : Option Failure → Stream Step}
    {stream stream' : Stream Step}
    (h : (stream.draw w none).Follows change (stream'.draw w' none))
    (hother : ∀ last last', ((otherwise last).draw w none).Follows change
      ((otherwise' last').draw w' none)) :
    ((commit name otherwise stream).draw w none).Follows change
      ((commit name' otherwise' stream').draw w' none) := by
  by_cases hpassed : Passed (stream.draw w none)
  · obtain ⟨last, hitems, hfault⟩ := draw_commit_of_passed name otherwise hpassed
    obtain ⟨last', hitems', hfault'⟩ := draw_commit_of_passed name' otherwise'
      ((passed_iff h).mpr hpassed)
    have hnext := hother last last'
    exact ⟨by rw [hitems, hitems']; exact hnext.items, by rw [hfault, hfault', hnext.fault]⟩
  · obtain ⟨hitems, hfault⟩ := draw_commit_of_not_passed name otherwise hpassed
    obtain ⟨hitems', hfault'⟩ := draw_commit_of_not_passed name' otherwise'
      (mt (passed_iff h).mp hpassed)
    exact ⟨by rw [hitems, hitems']; exact h.items, by rw [hfault, hfault', h.fault]⟩

/-- A chain follows another one if its renamers do so one by one. -/
theorem delegate_follows {s s' : Source} {offset offset' : Int} {newName : Json}
    {renamers : List Renamer}
    (h : ∀ r ∈ renamers, (r.range? s' offset').isSome = (r.range? s offset).isSome ∧
      ((r.steps s offset newName).draw w none).Follows change
        ((r.steps s' offset' newName).draw w' none)) (last last' : Option Failure) :
    ((delegate s offset newName last renamers).draw w none).Follows change
      ((delegate s' offset' newName last' renamers).draw w' none) := by
  induction renamers generalizing last last' with
  | nil => exact ⟨.cons (.failure _ _) .nil, rfl⟩
  | cons r rest ih =>
    obtain ⟨⟨hrange, hsteps⟩, hrest⟩ := List.forall_mem_cons.mp h
    rw [delegate, delegate]
    cases hr : r.range? s offset with
    | none =>
      rw [hr, Option.isSome_none, Option.isSome_eq_false_iff, Option.isNone_iff_eq_none] at hrange
      rw [hrange]
      exact ih hrest last last'
    | some range =>
      rw [hr, Option.isSome_some] at hrange
      obtain ⟨range', hr'⟩ := Option.isSome_iff_exists.mp hrange
      rw [hr']
      exact commit_follows hsteps fun f f' => ih hrest _ _

end Chain

namespace Source.Moves

variable {f : Nat → Nat} {s s' : Source} (h : Moves f s s')
include h

/-- The two strategies one after the other. -/
theorem chain_follows {u : String} (hu : s.uri = .str u) {w w' : Workspace}
    (hw : ∀ spelling, Reference.elsewhere (.str u) spelling w'.documents =
      Reference.elsewhere (.str u) spelling w.documents) (o : Nat) (newName : Json) :
    ((Chain.standard.steps s o newName).draw w none).Follows
      (LocatedEdit.movedAt h.mono u)
      ((Chain.standard.steps s' (f o : Nat) newName).draw w' none) := by
  apply Chain.delegate_follows
  intro r hr
  simp only [List.mem_cons, List.not_mem_nil, or_false] at hr
  rcases hr with rfl | rfl
  · have hrange := congrArg Option.isSome (h.variable_range? o)
    rw [Option.isSome_map] at hrange
    exact ⟨hrange, h.variable_follows hu w w' o newName⟩
  · have hrange := congrArg Option.isSome (h.reference_range? o)
    rw [Option.isSome_map] at hrange
    exact ⟨hrange, h.reference_follows hu hw o newName⟩

/-- The range that a chain of both would rename. -/
theorem chain_range? (o : Nat) :
    Chain.standard.range? s' (f o : Nat) =
      (Chain.standard.range? s o).map (ByteRange.moved h.mono) := by
  rw [Chain.range?_standard, Chain.range?_standard, h.variable_range?, h.reference_range?,
    Option.map_or]

end Source.Moves

namespace RenameService

/-- Drawing goes on to the same end, with the same edits changed. -/
theorem collected_follows {change : LocatedEdit → LocatedEdit} (fault : Option Fault)
    {items items' : List Step} (h : List.Forall₂ (Step.Follows change) items items')
    (edits : List LocatedEdit) :
    (collected fault (edits.map change) items').map Except.toOption =
      ((collected fault edits items).map Except.toOption).map (Option.map (List.map change)) := by
  induction h generalizing edits with
  | nil => cases fault <;> rfl
  | cons hstep _ ih =>
    cases hstep with
    | failure failure failure' => rfl
    | edit e =>
      have hnext := ih (edits ++ [e])
      rw [List.map_append] at hnext
      exact hnext

theorem failure_of_collected {fault : Option Fault} {edits : List LocatedEdit}
    {items : List Step} {failure : Failure}
    (h : collected fault edits items = .ok (.error failure)) : .failure failure ∈ items := by
  induction items generalizing edits with
  | nil => cases fault <;> cases h
  | cons step rest ih =>
    cases step with
    | failure first =>
      obtain rfl := Except.error.inj (Except.ok.inj h)
      exact List.mem_cons_self ..
    | edit e => exact List.mem_cons_of_mem _ (ih h)

theorem message_of_str {c : Conflict} {u : String} (h : c.uri = .str u) :
    ∃ text, c.message = .plain text := by
  rw [Conflict.message, h]
  exact ⟨_, rfl⟩

variable {f : Nat → Nat} {hf : StrictMono f} {u : String} {shown : Str → Except Fault Unit}
  (hplain : ∀ text : String, shown (.plain text) = .ok ())
include hplain

/-- What the client is shown of failures whose text can be encoded makes no difference. -/
theorem mapped_error {failure : Failure} (h : Step.Fits (fun _ => True) (.failure failure)) :
    mapped shown (.error failure) = .ok none := by
  obtain ⟨text, htext⟩ := h
  rw [mapped, htext, hplain]
  rfl

theorem mapped_moved (es : List LocatedEdit) :
    mapped shown (.ok (es.map (LocatedEdit.movedAt hf u))) =
      (mapped shown (.ok es)).map (Option.map (EditMap.movedAt hf u)) := by
  have hfold := EditMap.foldlM_movedAt (u := u) hf es .empty
  have hempty : EditMap.empty.movedAt hf u = .empty := rfl
  rw [hempty] at hfold
  rw [mapped, mapped]
  cases hes : es.foldlM EditMap.add .empty with
  | ok map =>
    rw [hes] at hfold
    cases hmoved : (es.map (LocatedEdit.movedAt hf u)).foldlM EditMap.add .empty with
    | ok map' =>
      rw [hmoved] at hfold
      obtain rfl := Option.some.inj hfold
      rfl
    | error c =>
      rw [hmoved] at hfold
      cases hfold
  | error c =>
    rw [hes] at hfold
    cases hmoved : (es.map (LocatedEdit.movedAt hf u)).foldlM EditMap.add .empty with
    | ok map' =>
      rw [hmoved] at hfold
      cases hfold
    | error c' =>
      -- The offsets in the message may differ, but then both messages reach the client.
      have hshown : shown c'.message = shown c.message := by
        rcases EditMap.conflict_movedAt hf hes hmoved with rfl | ⟨hc, hc'⟩
        · rfl
        · obtain ⟨text, htext⟩ := message_of_str hc
          obtain ⟨text', htext'⟩ := message_of_str hc'
          rw [htext, htext', hplain, hplain]
      simp only [hshown]
      cases shown c.message <;> rfl

/-- The groups are the same up to the move, and there are none if there were none. -/
theorem grouped_follows {d d' : Stream.Drawn Step} (h : d.Follows (LocatedEdit.movedAt hf u) d')
    (hd : ∀ step ∈ d.items, step.Fits fun _ => True)
    (hd' : ∀ step ∈ d'.items, step.Fits fun _ => True) :
    grouped shown d' = (grouped shown d).map (Option.map (EditMap.movedAt hf u)) := by
  have hcollected := collected_follows d.fault h.items []
  rw [List.map_nil] at hcollected
  rw [grouped, grouped, h.fault]
  cases hleft : collected d.fault [] d.items with
  | error fault =>
    rw [hleft] at hcollected
    cases hright : collected d.fault [] d'.items with
    | error fault' =>
      rw [hright] at hcollected
      obtain rfl := Except.error.inj hcollected
      rfl
    | ok result => rw [hright] at hcollected; cases hcollected
  | ok result =>
    rw [hleft] at hcollected
    cases hright : collected d.fault [] d'.items with
    | error fault' => rw [hright] at hcollected; cases hcollected
    | ok result' =>
      rw [hright] at hcollected
      have hresult := Except.ok.inj hcollected
      change mapped shown result' = (mapped shown result).map _
      cases result with
      | error failure =>
        cases result' with
        | error failure' =>
          rw [mapped_error hplain (hd _ (failure_of_collected hleft)),
            mapped_error hplain (hd' _ (failure_of_collected hright))]
          rfl
        | ok es' => cases hresult
      | ok es =>
        cases result' with
        | error failure' => cases hresult
        | ok es' =>
          obtain rfl := Option.some.inj hresult
          exact mapped_moved hplain es

end RenameService

end RenameServer
