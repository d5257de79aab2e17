import RenameServer.Job
import RenameServer.Proofs.Encoding
import RenameServer.Proofs.Strategies

/-!
How a job comes to its result while others act at its pauses. Time is counted in
pauses; the workspace of a moment is what all operations up to then have made
of the first one. The relation follows the job step by step, so that a sequence
of jobs is taken apart into jobs with moments between them.
-/
namespace RenameServer

namespace Workspace

theorem has_of_asKey {uri key : Json} (h : uri.asKey = .ok key) (w : Workspace) :
    w.has uri = .ok (w.find? key).isSome := by
  rw [has, h]
  rfl

theorem get_of_asKey {uri key : Json} (h : uri.asKey = .ok key) (w : Workspace) :
    w.get uri = (w.find? key).elim (.error (.documentNotFound uri)) .ok := by
  simp only [get, h, bind, Except.bind]
  cases w.find? key <;> rfl

theorem has_str (w : Workspace) (u : String) :
    w.has (.str u) = .ok (w.find? (.str u)).isSome := rfl

theorem get_str (w : Workspace) (u : String) :
    w.get (.str u) =
      match w.find? (.str u) with
      | some d => .ok d
      | none => .error (.documentNotFound (.str u)) := rfl

/-- The document at a URI is the only one there. -/
theorem Keyed.find?_eq {w : Workspace} (h : w.Keyed) {d : Document} (hd : d ∈ w.documents)
    {u : String} (hu : d.uri = .str u) : w.find? (.str u) = some d := by
  obtain ⟨documents⟩ := w
  induction documents with
  | nil => cases hd
  | cons other rest ih =>
    obtain ⟨hother, hrest⟩ := List.pairwise_cons.mp h
    rcases List.mem_cons.mp hd with rfl | hd
    · exact find?_cons_of_eq hu rest
    · rw [find?_cons_of_ne fun hsame => hother d hd u ⟨hsame, hu⟩]
      exact ih hrest hd

theorem mem_insert {d e : Document} {documents : List Document} (h : e ∈ insert d documents) :
    e = d ∨ e ∈ documents := by
  induction documents with
  | nil => exact .inl (List.mem_singleton.mp h)
  | cons other rest ih =>
    rw [insert] at h
    split at h
    · exact (List.mem_cons.mp h).imp id (List.mem_cons_of_mem _)
    · rcases List.mem_cons.mp h with rfl | h
      · exact .inr (List.mem_cons_self ..)
      · exact (ih h).imp id (List.mem_cons_of_mem _)

theorem Keyed.put {w : Workspace} (h : w.Keyed) (d : Document) : (w.put d).Keyed := by
  obtain ⟨documents⟩ := w
  induction documents with
  | nil => exact List.pairwise_singleton _ _
  | cons other rest ih =>
    obtain ⟨hother, hrest⟩ := List.pairwise_cons.mp h
    rw [Keyed, Workspace.put, insert]
    split
    · next hsame =>
      refine List.pairwise_cons.mpr ⟨fun e he u hu => hother e he u ⟨?_, hu.2⟩, hrest⟩
      rw [hu.1] at hsame
      exact Json.sameKey_str.mp hsame
    · next hsame =>
      refine List.pairwise_cons.mpr ⟨fun e he u hu => ?_, ih hrest⟩
      rcases mem_insert he with rfl | he
      · exact hsame (by rw [hu.1, hu.2]; exact Json.sameKey_str.mpr rfl)
      · exact hother e he u hu

theorem Keyed.update {w w' : Workspace} (h : w.Keyed) {uri text version : Json}
    (hupdate : w.update uri text version = .ok w') : w'.Keyed := by
  obtain ⟨d, -, hput⟩ := exists_of_bind_ok hupdate
  obtain rfl := Except.ok.inj hput
  exact h.put _

/-- No operation gives two documents the same URI. -/
theorem Keyed.run {w : Workspace} (h : w.Keyed) (op : Operation) : (op.run w).Keyed := by
  have happly : ∀ next, op.apply w = .ok next → next.Keyed := by
    intro next hnext
    cases op with
    | openDocument d =>
      obtain ⟨key, -, hput⟩ := exists_of_bind_ok hnext
      obtain rfl := Except.ok.inj hput
      exact h.put d
    | update uri text version => exact h.update hnext
    | change uri changes version =>
      obtain ⟨d, -, htext⟩ := exists_of_bind_ok hnext
      obtain ⟨items, -, hitems⟩ := exists_of_bind_ok htext
      obtain ⟨text, -, hupdate⟩ := exists_of_bind_ok hitems
      exact h.update hupdate
    | closeDocument uri =>
      obtain ⟨key, -, herase⟩ := exists_of_bind_ok hnext
      obtain rfl := Except.ok.inj herase
      exact List.Pairwise.sublist (List.eraseP_sublist ..) h
  rw [Operation.run]
  split
  · next next hnext => exact happly next hnext
  · exact h

end Workspace

namespace Job

variable {α β : Type}

/-- The workspace after each pause. -/
def worlds (schedule : Schedule) (w : Workspace) : Nat → Workspace
  | 0 => w
  | n + 1 => (schedule (n + 1)).foldl Workspace.Operation.run (worlds schedule w n)

theorem keyed_worlds {schedule : Schedule} {w : Workspace} (h : w.Keyed) (n : Nat) :
    (worlds schedule w n).Keyed := by
  induction n with
  | zero => exact h
  | succ n ih =>
    exact List.foldlRecOn (schedule (n + 1)) Workspace.Operation.run ih fun _ hw op _ => hw.run op

theorem worlds_alone (w : Workspace) : worlds alone w = fun _ => w := by
  funext n
  induction n with
  | zero => rfl
  | succ n ih => exact ih

/-- A job that is started at the moment `p` comes to a result at the moment `q`. -/
inductive Yields (disk : Disk) (world : Nat → Workspace) : Nat → Nat → Job α → α → Prop where
  | done (p : Nat) (a : α) : Yields disk world p p (.done a) a
  | emit {p q : Nat} {next : Job α} {a : α} (event : Event) (h : Yields disk world p q next a) :
    Yields disk world p q (.emit event next) a
  | look {p q : Nat} {next : Workspace → Job α} {a : α}
    (h : Yields disk world p q (next (world p)) a) : Yields disk world p q (.look next) a
  | read {p q : Nat} (path : String) {next : FileEntry → Job α} {a : α}
    (h : Yields disk world p q (next (disk path)) a) : Yields disk world p q (.read path next) a
  | pause {p q : Nat} {next : Job α} {a : α} (h : Yields disk world (p + 1) q next a) :
    Yields disk world p q (.pause next) a

variable {disk : Disk} {world : Nat → Workspace} {p q : Nat}

theorem Yields.le {job : Job α} {a : α} (h : job.Yields disk world p q a) : p ≤ q := by
  induction h with
  | done => exact Nat.le_refl _
  | emit _ _ ih => exact ih
  | look _ ih => exact ih
  | read _ _ ih => exact ih
  | pause _ ih => exact Nat.le_of_succ_le ih

/-- A job after another one starts at the moment when that one is done. -/
theorem Yields.of_bind {job : Job α} {f : α → Job β} {b : β}
    (h : (job.bind f).Yields disk world p q b) :
    ∃ r a, job.Yields disk world p r a ∧ (f a).Yields disk world r q b := by
  induction job generalizing p with
  | done a => exact ⟨p, a, .done p a, h⟩
  | raise fault => cases h
  | emit event next ih =>
    cases h with
    | emit _ h =>
      obtain ⟨r, a, hfirst, hrest⟩ := ih h
      exact ⟨r, a, .emit event hfirst, hrest⟩
  | look next ih =>
    cases h with
    | look h =>
      obtain ⟨r, a, hfirst, hrest⟩ := ih _ h
      exact ⟨r, a, .look hfirst, hrest⟩
  | read path next ih =>
    cases h with
    | read _ h =>
      obtain ⟨r, a, hfirst, hrest⟩ := ih _ h
      exact ⟨r, a, .read path hfirst, hrest⟩
  | pause next ih =>
    cases h with
    | pause h =>
      obtain ⟨r, a, hfirst, hrest⟩ := ih h
      exact ⟨r, a, .pause hfirst, hrest⟩

theorem Yields.of_ofExcept {x : Except Fault α} {a : α}
    (h : (ofExcept x).Yields disk world p q a) : x = .ok a ∧ p = q := by
  cases x with
  | error fault => cases h
  | ok b =>
    cases h
    exact ⟨rfl, rfl⟩

/-- A run with a result goes through the workspaces of its schedule. -/
theorem yields_of_run {schedule : Schedule} {w : Workspace} {job : Job α} {a : α}
    (h : (job.run disk schedule p (worlds schedule w p)).result = .ok a) :
    ∃ q, job.Yields disk (worlds schedule w) p q a := by
  induction job generalizing p with
  | done b =>
    cases h
    exact ⟨p, .done p a⟩
  | raise fault => cases h
  | emit event next ih => exact (ih h).imp fun q hq => .emit event hq
  | look next ih => exact (ih _ h).imp fun q hq => .look hq
  | read path next ih => exact (ih _ h).imp fun q hq => .read path hq
  | pause next ih => exact (ih h).imp fun q hq => .pause hq

/-- A job that does not pause sees one workspace only. -/
theorem Yields.result_run_of_le {job : Job α} {a : α} (h : job.Yields disk world p q a)
    (hq : q ≤ p) : (job.run disk alone p (world p)).result = .ok a := by
  induction h with
  | done => rfl
  | emit _ _ ih => exact ih hq
  | look _ ih => exact ih hq
  | read _ _ ih => exact ih hq
  | pause h ih =>
    have := h.le
    omega

/-- The document that is found at a URI at one moment. -/
def located (disk : Disk) (w : Workspace) (uri : Json) : Except Fault Document :=
  ((locate uri).run disk alone 0 w).result

theorem run_ofExcept (schedule : Schedule) (w : Workspace) (x : Except Fault α) :
    ((ofExcept x).run disk schedule p w).result = x := by
  cases x <;> rfl

theorem Yields.of_locate {uri : Json} {d : Document}
    (h : (locate uri).Yields disk world p q d) : p = q ∧ located disk (world p) uri = .ok d := by
  cases h with
  | look h =>
    simp only [located, locate, run]
    cases hhas : (world p).has uri with
    | error fault =>
      simp only [hhas] at h
      cases h
    | ok isOpen =>
      cases isOpen with
      | true =>
        simp only [hhas] at h
        obtain ⟨hget, rfl⟩ := h.of_ofExcept
        exact ⟨rfl, by rw [run_ofExcept, hget]⟩
      | false =>
        simp only [hhas] at h
        cases hpath : Uri.pathOf uri with
        | error fault =>
          simp only [hpath] at h
          cases h
        | ok path =>
          simp only [hpath] at h
          split at h
          · cases h
          · next hnul =>
            cases h with
            | read _ h =>
              obtain ⟨hfile, rfl⟩ := h.of_ofExcept
              exact ⟨rfl, by simp only [if_neg hnul, run, run_ofExcept, hfile]⟩

/-- A document that is not open is what the file that its URI names holds. -/
theorem located_of_closed {w : Workspace} {uri : Json} (h : w.has uri = .ok false) :
    located disk w uri = (Uri.pathOf uri >>= fun path =>
      if path.toList.contains '\x00' then .error .nulInPath
      else Document.ofFile uri (disk path)) := by
  simp only [located, locate, run, h]
  cases Uri.pathOf uri with
  | error fault => rfl
  | ok path =>
    change (run disk alone 0 w (if _ then _ else _)).result = if _ then _ else _
    split
    · rfl
    · exact run_ofExcept alone w _

/-- An open document is found in the workspace. -/
theorem mem_of_located {w : Workspace} {uri : Json} {d : Document}
    (h : located disk w uri = .ok d) (hopen : w.has uri = .ok true) : d ∈ w.documents := by
  rw [located, locate, Job.run, hopen] at h
  rw [run_ofExcept] at h
  obtain ⟨key, -, hget⟩ := exists_of_bind_ok h
  split at hget
  · next found hfind =>
    obtain rfl := Except.ok.inj hget
    exact Workspace.mem_of_find? hfind
  · cases hget

theorem located_of_find? {w : Workspace} {u : String} {d : Document}
    (h : w.find? (.str u) = some d) : located disk w (.str u) = .ok d := by
  have hhas : w.has (.str u) = .ok true := by rw [Workspace.has_str, h, Option.isSome_some]
  have hget : w.get (.str u) = .ok d := by rw [Workspace.get_str, h]
  rw [located, locate, run, hhas, hget]
  rfl

end Job

end RenameServer
