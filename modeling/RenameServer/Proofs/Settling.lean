import RenameServer.Proofs.Reports
import RenameServer.Proofs.Tidiness

/-!
Jobs about open documents whose texts are all strings. While nothing is closed, what
was open at one moment is open at all later ones. A job settles if it comes to a
result, or if only such a fault stops it as has to be expected; a stream of edits is
safe if it can be drawn at any moments. The default renamers are safe: all that can
stop them is a text to be encoded in which half of a surrogate pair stands alone.
-/
namespace RenameServer

/-- The text can be encoded. -/
def Str.IsPlain (s : Str) : Prop := ∃ text, s = .plain text

/-- A text of an allowed kind. -/
def Json.TextIn (allowed : Str → Prop) (value : Json) : Prop :=
  ∃ text, allowed text ∧ value = .ofStr text

/-- The fault of a text that cannot be encoded. -/
def Fault.IsUnencodable (fault : Fault) : Prop :=
  ∃ half position count, fault = .unencodable half position count

/-- The fault of a text that cannot be encoded, where such texts are allowed. -/
def Fault.Allowed (allowed : Str → Prop) (fault : Fault) : Prop :=
  fault.IsUnencodable ∧ ∃ r, allowed (.ragged r)

theorem Fault.not_allowed (fault : Fault) : ¬fault.Allowed Str.IsPlain := by
  rintro ⟨-, r, text, hr⟩
  cases hr

namespace Workspace

variable {allowed : Str → Prop}

/-- All documents have texts of an allowed kind, under URIs that can be looked up. -/
def Textual (allowed : Str → Prop) (w : Workspace) : Prop :=
  ∀ d ∈ w.documents, (∃ k, d.uri.key? = some k) ∧ d.text.TextIn allowed

/-- An operation that closes nothing, and whose texts are strings of an allowed kind. -/
def Operation.Textual (allowed : Str → Prop) : Operation → Prop
  | .openDocument d => d.text.TextIn allowed
  | .update _ text _ => text.TextIn allowed
  | .change _ changes _ => ∀ items, changes.toItems = .ok items →
      ∀ item ∈ items, ∀ text, item.need "text" = .ok text → text.TextIn allowed
  | .closeDocument _ => False

theorem Textual.put {w : Workspace} (h : w.Textual allowed) {d : Document}
    (hkey : ∃ k, d.uri.key? = some k) (htext : d.text.TextIn allowed) :
    (w.put d).Textual allowed := by
  intro e he
  rcases mem_insert he with rfl | he
  · exact ⟨hkey, htext⟩
  · exact h e he

theorem Textual.update {w w' : Workspace} (h : w.Textual allowed) {uri text version : Json}
    (htext : text.TextIn allowed) (hupdate : w.update uri text version = .ok w') :
    w'.Textual allowed := by
  obtain ⟨d, hd, hput⟩ := exists_of_bind_ok hupdate
  obtain ⟨key, hkey, -⟩ := exists_of_bind_ok hd
  obtain rfl := Except.ok.inj hput
  exact h.put (Json.key?_of_asKey hkey).2 htext

/-- What a change makes of a text: the new text as it came, or one that can be encoded. -/
theorem textIn_of_changeText (hplain : ∀ text, allowed (.plain text)) {text change result : Json}
    (hchange : ∀ t, change.need "text" = .ok t → t.TextIn allowed)
    (h : changeText text change = .ok result) : result.TextIn allowed := by
  cases change with
  | obj fields =>
    simp only [changeText] at h
    split at h
    · exact hchange result h
    · obtain ⟨start, -, h⟩ := exists_of_bind_ok h
      obtain ⟨first, -, h⟩ := exists_of_bind_ok h
      obtain ⟨start, -, h⟩ := exists_of_bind_ok h
      obtain ⟨stop, -, h⟩ := exists_of_bind_ok h
      obtain ⟨last, -, h⟩ := exists_of_bind_ok h
      obtain ⟨stop, -, h⟩ := exists_of_bind_ok h
      obtain ⟨old, -, h⟩ := exists_of_bind_ok h
      obtain ⟨new, -, h⟩ := exists_of_bind_ok h
      obtain ⟨replacement, -, h⟩ := exists_of_bind_ok h
      obtain ⟨spliced, -, h⟩ := exists_of_bind_ok h
      exact ⟨.plain spliced, hplain spliced, (Except.ok.inj h).symm⟩
  | _ => cases h

theorem textIn_of_changes (hplain : ∀ text, allowed (.plain text)) {items : List Json}
    {text result : Json} (htext : text.TextIn allowed)
    (hitems : ∀ item ∈ items, ∀ t, item.need "text" = .ok t → t.TextIn allowed)
    (h : items.foldlM changeText text = .ok result) : result.TextIn allowed := by
  induction items generalizing text with
  | nil =>
    obtain rfl := Except.ok.inj h
    exact htext
  | cons item rest ih =>
    obtain ⟨hitem, hrest⟩ := List.forall_mem_cons.mp hitems
    rw [List.foldlM_cons] at h
    obtain ⟨next, hnext, h⟩ := exists_of_bind_ok h
    exact ih (textIn_of_changeText hplain hitem hnext) hrest h

theorem Textual.get {w : Workspace} (h : w.Textual allowed) {uri : Json} {d : Document}
    (hd : w.get uri = .ok d) : d.text.TextIn allowed := by
  obtain ⟨key, -, hget⟩ := exists_of_bind_ok hd
  split at hget
  · next found hfind =>
    obtain rfl := Except.ok.inj hget
    exact (h _ (mem_of_find? hfind)).2
  · cases hget

/-- Documents keep having texts. -/
theorem Textual.run (hplain : ∀ text, allowed (.plain text)) {w : Workspace}
    (h : w.Textual allowed) {op : Operation} (hop : op.Textual allowed) :
    (op.run w).Textual allowed := by
  have happly : ∀ next, op.apply w = .ok next → next.Textual allowed := by
    intro next hnext
    cases op with
    | openDocument d =>
      obtain ⟨key, hkey, hput⟩ := exists_of_bind_ok hnext
      obtain rfl := Except.ok.inj hput
      exact h.put (Json.key?_of_asKey hkey).2 hop
    | update uri text version => exact h.update hop hnext
    | change uri changes version =>
      obtain ⟨d, hd, htext⟩ := exists_of_bind_ok hnext
      obtain ⟨items, hitems, hchange⟩ := exists_of_bind_ok htext
      obtain ⟨text, hfold, hupdate⟩ := exists_of_bind_ok hchange
      exact h.update (textIn_of_changes hplain (h.get hd) (hop items hitems) hfold) hupdate
    | closeDocument uri => exact hop.elim
  rw [Operation.run]
  split
  · next next hnext => exact happly next hnext
  · exact h

/-- Documents stay open. -/
theorem keys_subset_run {op : Operation} (hop : op.Textual allowed) (w : Workspace) :
    w.keys ⊆ (op.run w).keys := by
  have hcloses : op.closes? = none := by
    cases op with
    | closeDocument uri => exact hop.elim
    | _ => rfl
  cases hopens : op.opens? with
  | none => rw [keys_run_other hopens hcloses]; exact List.Subset.refl _
  | some k =>
    rw [keys_run_open hopens]
    split
    · exact List.Subset.refl _
    · exact List.subset_append_left ..

theorem key?_of_find? {w : Workspace} {uri : Json} {d : Document} (h : w.find? uri = some d) :
    d.uri.key? = uri.key? := by
  have hsame := List.find?_some h
  exact Json.sameKey_iff.mp hsame

/-- A document that is open can be looked up. -/
theorem Textual.exists_get {w : Workspace} (h : w.Textual allowed) {uri : Json}
    (hopen : uri.key? ∈ w.keys) : ∃ d, w.has uri = .ok true ∧ w.get uri = .ok d := by
  obtain ⟨other, hother, hsame⟩ := List.mem_map.mp hopen
  obtain ⟨⟨k, hk⟩, -⟩ := h other hother
  have hkey : uri.asKey = .ok uri := Json.asKey_of_key? (hsame.symm.trans hk)
  cases hfind : w.find? uri with
  | none => exact absurd (Json.sameKey_iff.mpr hsame) (List.find?_eq_none.mp hfind other hother)
  | some d =>
    refine ⟨d, ?_, ?_⟩
    · rw [has_of_asKey hkey, hfind, Option.isSome_some]
    · rw [get_of_asKey hkey, hfind, Option.elim_some]

theorem has_of_get {w : Workspace} {uri : Json} {d : Document} (h : w.get uri = .ok d) :
    w.has uri = .ok true ∧ d.uri.key? = uri.key? := by
  obtain ⟨key, hkey, hget⟩ := exists_of_bind_ok h
  obtain ⟨rfl, -⟩ := Json.key?_of_asKey hkey
  split at hget
  · next found hfind =>
    obtain rfl := Except.ok.inj hget
    refine ⟨?_, key?_of_find? hfind⟩
    rw [has_of_asKey hkey, hfind, Option.isSome_some]
  · cases hget

end Workspace

/-- Workspaces one after the other: all documents have texts, and open documents
stay open. -/
structure Steady (allowed : Str → Prop) (world : Nat → Workspace) : Prop where
  textual : ∀ n, (world n).Textual allowed
  stays : ∀ n, (world n).keys ⊆ (world (n + 1)).keys

namespace Steady

variable {allowed : Str → Prop} {world : Nat → Workspace} {p q : Nat}

theorem keys_subset (h : Steady allowed world) (hpq : p ≤ q) :
    (world p).keys ⊆ (world q).keys := by
  induction hpq with
  | refl => exact List.Subset.refl _
  | step _ ih => exact List.Subset.trans ih (h.stays _)

theorem worlds (hplain : ∀ text, allowed (.plain text)) {schedule : Job.Schedule} {w : Workspace}
    (hw : w.Textual allowed) (hschedule : ∀ n, ∀ op ∈ schedule n, op.Textual allowed) :
    Steady allowed (Job.worlds schedule w) where
  textual n := by
    induction n with
    | zero => exact hw
    | succ n ih =>
      exact List.foldlRecOn (schedule (n + 1)) Workspace.Operation.run ih
        fun w hw op hop => hw.run hplain (hschedule _ op hop)
  stays n :=
    List.foldlRecOn (motive := fun next => (Job.worlds schedule w n).keys ⊆ next.keys)
      (schedule (n + 1)) Workspace.Operation.run (List.Subset.refl _) fun next hnext op hop =>
        List.Subset.trans hnext (Workspace.keys_subset_run (hschedule _ op hop) next)

end Steady

namespace Job

variable {α β : Type} {disk : Disk} {world : Nat → Workspace} {expected : Fault → Prop}
  {R : Nat → α → Prop} {p q : Nat}

/-- A job that is started at the moment `p` comes to a result with a certain property, or a
fault stops it that was to be expected. -/
def Settles (disk : Disk) (world : Nat → Workspace) (expected : Fault → Prop)
    (R : Nat → α → Prop) : Nat → Job α → Prop
  | p, .done a => R p a
  | _, .raise fault => expected fault
  | p, .emit _ next => next.Settles disk world expected R p
  | p, .look next => (next (world p)).Settles disk world expected R p
  | p, .read path next => (next (disk path)).Settles disk world expected R p
  | p, .pause next => next.Settles disk world expected R (p + 1)

/-- What is known of a result holds of the run that has it. -/
theorem Settles.bind {job : Job α} {f : α → Job β} {S : Nat → β → Prop}
    (h : job.Settles disk world expected R p)
    (hf : ∀ q a, job.Yields disk world p q a → R q a →
      (f a).Settles disk world expected S q) :
    (job >>= f).Settles disk world expected S p := by
  induction job generalizing p with
  | done a => exact hf p a (.done p a) h
  | raise fault => exact h
  | emit event next ih => exact ih h fun q a hq => hf q a (.emit event hq)
  | look next ih => exact ih _ h fun q a hq => hf q a (.look hq)
  | read path next ih => exact ih _ h fun q a hq => hf q a (.read path hq)
  | pause next ih => exact ih h fun q a hq => hf q a (.pause hq)

theorem Settles.imp {R' : Nat → α → Prop} {job : Job α} (h : job.Settles disk world expected R p)
    (hR : ∀ q a, R q a → R' q a) : job.Settles disk world expected R' p := by
  induction job generalizing p with
  | done a => exact hR p a h
  | raise fault => exact h
  | emit event next ih => exact ih h
  | look next ih => exact ih _ h
  | read path next ih => exact ih _ h
  | pause next ih => exact ih h

theorem settles_ofExcept {x : Except Fault α} {a : α} (h : x = .ok a) :
    (ofExcept x).Settles disk world expected (fun q b => q = p ∧ b = a) p := by
  rw [h]
  exact ⟨rfl, rfl⟩

/-- A job whose course is known. -/
theorem settles_course {job : Job α} {a : α} (h : (job.course disk world p).result = .ok a) :
    job.Settles disk world expected
      (fun q b => q = (job.course disk world p).moment ∧ b = a) p := by
  induction job generalizing p with
  | done b => exact ⟨rfl, Except.ok.inj h⟩
  | raise fault => cases h
  | emit event next ih => exact ih h
  | look next ih => exact ih _ h
  | read path next ih => exact ih _ h
  | pause next ih => exact ih h

/-- The run under a schedule has the result, or the fault. -/
theorem Settles.result_run {schedule : Schedule} {w : Workspace} {job : Job α}
    (h : job.Settles disk (worlds schedule w) expected R p) :
    let result := (job.run disk schedule p (worlds schedule w p)).result
    (∃ q a, result = .ok a ∧ R q a) ∨ ∃ fault, result = .error fault ∧ expected fault := by
  induction job generalizing p with
  | done a => exact .inl ⟨p, a, rfl, h⟩
  | raise fault => exact .inr ⟨fault, rfl, h⟩
  | emit event next ih => exact ih h
  | look next ih => exact ih _ h
  | read path next ih => exact ih _ h
  | pause next ih => exact ih h

theorem Settles.of_error {schedule : Schedule} {w : Workspace} {job : Job α}
    (h : job.Settles disk (worlds schedule w) expected R 0) {fault : Fault}
    (hrun : (job.run disk schedule 0 w).result = .error fault) : expected fault := by
  rcases h.result_run with ⟨q, a, hok, -⟩ | ⟨fault', herror, hexpected⟩
  · cases hrun.symm.trans hok
  · rwa [Except.error.inj (hrun.symm.trans herror)]

theorem Settles.of_ok {schedule : Schedule} {w : Workspace} {job : Job α}
    (h : job.Settles disk (worlds schedule w) expected R 0) {a : α}
    (hrun : (job.run disk schedule 0 w).result = .ok a) : ∃ q, R q a := by
  rcases h.result_run with ⟨q, a', hok, hR⟩ | ⟨fault, herror, -⟩
  · exact ⟨q, Except.ok.inj (hrun.symm.trans hok) ▸ hR⟩
  · cases hrun.symm.trans herror

theorem Settles.exists_ok {schedule : Schedule} {w : Workspace} {job : Job α}
    (h : job.Settles disk (worlds schedule w) (Fault.Allowed Str.IsPlain) R 0) :
    ∃ a, (job.run disk schedule 0 w).result = .ok a := by
  rcases h.result_run with ⟨q, a, hok, -⟩ | ⟨fault, -, hallowed⟩
  · exact ⟨a, hok⟩
  · exact absurd hallowed fault.not_allowed

/-- An open document is located. -/
theorem settles_locate {uri : Json} {d : Document} (hd : (world p).get uri = .ok d) :
    (locate uri).Settles disk world expected (fun q found => q = p ∧ found = d) p := by
  have hhas := (Workspace.has_of_get hd).1
  simp only [locate, Settles, hhas, hd]
  exact ⟨rfl, rfl⟩

/-- A text is read, unless it cannot be encoded. -/
theorem settles_toText {allowed : Str → Prop} {value : Json} (h : value.TextIn allowed)
    (use : Use) : (ofExcept (value.toText use)).Settles disk world (Fault.Allowed allowed)
      (fun q text => q = p ∧ value = .str text) p := by
  obtain ⟨text, hallowed, rfl⟩ := h
  cases text with
  | plain text => exact ⟨rfl, rfl⟩
  | ragged r => exact ⟨⟨_, _, _, rfl⟩, r, hallowed⟩

end Job

namespace Stream

variable {α β : Type} {world : Nat → Workspace} {expected : Fault → Prop} {R : Nat → α → Prop}
  {p q : Nat}

/-- A stream that comes to its end at whichever moments from `p` on its items are drawn,
unless an expected fault stops it. What is required of an item may depend on the moment. -/
def Safe (world : Nat → Workspace) (expected : Fault → Prop) (R : Nat → α → Prop) :
    Nat → Stream α → Prop
  | _, .done => True
  | _, .raise fault => expected fault
  | p, .emit _ rest => rest.Safe world expected R p
  | p, .look rest => ∀ q, p ≤ q → (rest (world q)).Safe world expected R q
  | p, .item a rest => R p a ∧ rest.Safe world expected R p

theorem Safe.mono (hR : ∀ p q a, p ≤ q → R p a → R q a) {s : Stream α}
    (h : s.Safe world expected R p) (hpq : p ≤ q) : s.Safe world expected R q := by
  induction s with
  | done => trivial
  | raise fault => exact h
  | emit event rest ih => exact ih h
  | look rest ih => exact fun r hr => h r (Nat.le_trans hpq hr)
  | item a rest ih => exact ⟨hR p q a hpq h.1, ih h.2⟩

theorem safe_map {S : Nat → β → Prop} {f : α → β} (hf : ∀ p a, R p a → S p (f a)) {s : Stream α}
    (h : s.Safe world expected R p) : (s.map f).Safe world expected S p := by
  induction s generalizing p with
  | done => trivial
  | raise fault => exact h
  | emit event rest ih => exact ih h
  | look rest ih => exact fun q hq => ih _ (h q hq)
  | item a rest ih => exact ⟨hf p a h.1, ih h.2⟩

theorem safe_prepend {items : List α} {s : Stream α} (hitems : ∀ a ∈ items, R p a)
    (h : s.Safe world expected R p) : (prepend items s).Safe world expected R p := by
  induction items with
  | nil => exact h
  | cons a rest ih =>
    obtain ⟨ha, hrest⟩ := List.forall_mem_cons.mp hitems
    exact ⟨ha, ih hrest⟩

end Stream

section Streams

variable {allowed : Str → Prop} {world : Nat → Workspace} {p q : Nat} {newName : Str}

/-- An edit of a document that is open at a moment, or a failure with a text that can be
encoded. -/
def Step.Open (world : Nat → Workspace) (p : Nat) : Step → Prop :=
  Step.Fits fun uri => uri.key? ∈ (world p).keys

theorem Step.Open.mono (hworld : Steady allowed world) (p q : Nat) (step : Step) (hpq : p ≤ q)
    (h : step.Open world p) : step.Open world q := by
  cases step with
  | edit e => exact hworld.keys_subset hpq h
  | failure f => exact h

theorem Variable.safe_steps {s : Source} (hopen : s.uri.key? ∈ (world p).keys) (offset : Int)
    (hname : allowed newName) :
    (Variable.steps s offset (.ofStr newName)).Safe world (Fault.Allowed allowed)
      (Step.Open world) p := by
  simp only [Variable.steps]
  split
  · exact ⟨⟨_, rfl⟩, trivial⟩
  split
  · exact ⟨⟨_, rfl⟩, trivial⟩
  cases newName with
  | ragged r => exact ⟨⟨_, _, _, rfl⟩, r, hname⟩
  | plain name =>
    simp only [Json.ofStr]
    split
    · exact ⟨⟨_, rfl⟩, trivial⟩
    · rw [Stream.ofList_eq_prepend]
      refine Stream.safe_prepend ?_ trivial
      intro step hstep
      obtain ⟨t, -, rfl⟩ := List.mem_map.mp hstep
      exact hopen

/-- The documents that are open at a moment can all be searched. -/
theorem Reference.safe_elsewhere {uri : Json} {spelling : Utf8.Bytes} {documents : List Document}
    (htextual : Workspace.Textual allowed ⟨documents⟩)
    (hopen : ∀ d ∈ documents, d.uri.key? ∈ (world p).keys) :
    (elsewhere uri spelling documents).Safe world (Fault.Allowed allowed)
      (fun n (r : LocatedRange) => r.uri.key? ∈ (world n).keys) p := by
  induction documents with
  | nil => trivial
  | cons d rest ih =>
    obtain ⟨⟨-, text, htext, hd⟩, htextual⟩ := List.forall_mem_cons.mp htextual
    obtain ⟨hfirst, hopen⟩ := List.forall_mem_cons.mp hopen
    have hrest := ih htextual hopen
    rw [elsewhere]
    split
    · exact hrest
    cases text with
    | ragged r =>
      simp only [hd, Json.ofStr]
      exact ⟨⟨_, _, _, rfl⟩, r, htext⟩
    | plain text =>
      simp only [hd, Json.ofStr]
      exact Stream.safe_prepend (fun r hr => uri_of_matching r hr ▸ hfirst) hrest

theorem Reference.safe_steps (hworld : Steady allowed world) {s : Source}
    (hopen : s.uri.key? ∈ (world p).keys) (offset : Int) (hname : allowed newName) :
    (Reference.steps s offset (.ofStr newName)).Safe world (Fault.Allowed allowed)
      (Step.Open world) p := by
  simp only [Reference.steps]
  split
  · exact ⟨⟨_, rfl⟩, trivial⟩
  · next target htarget =>
    split
    · exact ⟨⟨_, rfl⟩, trivial⟩
    cases newName with
    | ragged r => exact ⟨⟨_, _, _, rfl⟩, r, hname⟩
    | plain name =>
      simp only [Json.ofStr]
      split
      · exact ⟨⟨_, rfl⟩, trivial⟩
      · have hfind : (find s offset).Safe world (Fault.Allowed allowed)
            (fun n (r : LocatedRange) => r.uri.key? ∈ (world n).keys) p := by
          simp only [find, htarget]
          refine Stream.safe_prepend (fun r hr => uri_of_matching r hr ▸ hopen) ?_
          intro q _
          exact safe_elsewhere (hworld.textual q) fun d hd => List.mem_map.mpr ⟨d, hd, rfl⟩
        refine Stream.safe_map ?_ hfind
        intro n r hr
        exact hr

namespace Chain

variable {expected : Fault → Prop}

theorem safe_commit {name : String} {otherwise : Option Failure → Stream Step} {s : Stream Step}
    (h : s.Safe world expected (Step.Open world) p)
    (hotherwise : ∀ q (last : Option Failure), p ≤ q →
      (∀ f ∈ last, ∃ text, f.message = .plain text) →
      (otherwise last).Safe world expected (Step.Open world) q) :
    (commit name otherwise s).Safe world expected (Step.Open world) p := by
  induction s generalizing p with
  | done => exact hotherwise p none (Nat.le_refl p) (by simp)
  | raise fault => exact h
  | emit event rest ih => exact ih h hotherwise
  | look rest ih =>
    exact fun q hq => ih _ (h q hq) fun r f hr => hotherwise r f (Nat.le_trans hq hr)
  | item step rest =>
    cases step with
    | failure f => exact hotherwise p (some f) (Nat.le_refl p) fun g hg => Option.some.inj hg ▸ h.1
    | edit e => exact h

theorem safe_delegate {renamers : List Renamer} {s : Source} {offset : Int} {newName : Json}
    (h : ∀ r ∈ renamers, ∀ q, p ≤ q →
      (r.steps s offset newName).Safe world expected (Step.Open world) q)
    {last : Option Failure} (hlast : ∀ f ∈ last, ∃ text, f.message = .plain text) :
    (delegate s offset newName last renamers).Safe world expected (Step.Open world) p := by
  induction renamers generalizing p last with
  | nil =>
    cases last with
    | none => exact ⟨⟨_, rfl⟩, trivial⟩
    | some f => exact ⟨hlast f rfl, trivial⟩
  | cons r rest ih =>
    obtain ⟨hr, hrest⟩ := List.forall_mem_cons.mp h
    rw [delegate]
    split
    · exact ih hrest hlast
    · refine safe_commit (hr p (Nat.le_refl p)) ?_
      intro q last' hq hlast'
      refine ih (fun r hr' q' hq' => hrest r hr' q' (Nat.le_trans hq hq')) ?_
      cases last' with
      | none => exact hlast
      | some f => exact hlast'

/-- The default renamers only edit documents that are open then. -/
theorem safe_standard (hworld : Steady allowed world) {s : Source}
    (hopen : s.uri.key? ∈ (world p).keys) (offset : Int) (hname : allowed newName) :
    (standard.steps s offset (.ofStr newName)).Safe world (Fault.Allowed allowed)
      (Step.Open world) p := by
  refine safe_delegate (fun r hr q hq => ?_) (by simp)
  have hopen := hworld.keys_subset hq hopen
  simp only [List.mem_cons, List.not_mem_nil, or_false] at hr
  rcases hr with rfl | rfl
  · exact Variable.safe_steps hopen offset hname
  · exact Reference.safe_steps hworld hopen offset hname

/-- Where something is announced, a new name is to be encoded before anything is drawn. -/
theorem steps_of_ragged {s : Source} {offset : Int} {range : ByteRange}
    (h : standard.range? s offset = some range) (r : Ragged) :
    ∃ fault, standard.steps s offset (.ragged r) = .raise fault ∧ fault.IsUnencodable := by
  have hsteps : standard.steps s offset (.ragged r) =
      delegate s offset (.ragged r) none [Variable.renamer, Reference.renamer] := rfl
  rw [hsteps, delegate]
  cases hvariable : Variable.renamer.range? s offset with
  | some range' =>
    obtain ⟨v, hv, hthis, -⟩ := exists_of_range? hvariable
    have hraise : Variable.renamer.steps s offset (.ragged r) =
        .raise (.ofRagged { r with before := Variable.bareName r.before }) := by
      change Variable.steps s offset (.ragged r) = _
      simp only [Variable.steps, hv, if_neg hthis]
    simp only [hraise, commit]
    exact ⟨_, rfl, _, _, _, rfl⟩
  | none =>
    have hnone : Variable.range? s offset = none := hvariable
    rw [range?_standard, hnone, Option.none_or] at h
    have hreference : Reference.renamer.range? s offset = some range := h
    have hraise : Reference.renamer.steps s offset (.ragged r) = .raise (.ofRagged r) := by
      change Reference.steps s offset (.ragged r) = _
      rw [Reference.range?] at h
      split at h
      · next target htarget =>
        split at h
        · cases h
        · next hreserved => simp only [Reference.steps, htarget, if_neg hreserved]
      · cases h
    simp only [delegate, hreference, hraise, commit]
    exact ⟨_, rfl, _, _, _, rfl⟩

end Chain

end Streams

end RenameServer
