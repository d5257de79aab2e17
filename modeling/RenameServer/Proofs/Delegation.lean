import Mathlib.Data.List.Induction
import RenameServer.Proofs.Drawing

/-!
What a chain does to its renamers while it is drawn. Each renamer is watched: it reports when its
stream is started and each time a step is drawn from it. A chain asks the renamers that apply for
one step each, until one starts with an edit, and from there on it draws from that one only. So
every step of the chain is one step of a renamer, and no renamer that does not apply or comes
later is ever started.
-/
namespace RenameServer

/-- The renamer that an event is about. -/
def Event.renamer? : Event → Option Nat
  | .started index | .drawn index => some index
  | .log _ | .sent _ | .paused => none

/-- The events about one renamer. -/
def Event.about (index : Nat) (events : List Event) : List Event :=
  events.filter fun event => event.renamer? = some index

/-- What is reported of a renamer that is started once and drawn from `k` times. -/
def Event.pulls (index k : Nat) : List Event := .started index :: List.replicate k (.drawn index)

theorem Event.about_cons (index : Nat) (event : Event) (events : List Event) :
    about index (event :: events) =
      if event.renamer? = some index then event :: about index events else about index events := by
  simp [about, List.filter_cons]

theorem Event.about_debug (index : Nat) (text : Str) (events : List Event) :
    about index (.debug text :: events) = about index events :=
  (about_cons ..).trans (if_neg (Option.some_ne_none index).symm)

theorem Event.about_append (index : Nat) (before after : List Event) :
    about index (before ++ after) = about index before ++ about index after :=
  List.filter_append ..

namespace Stream

variable {α : Type} {w : Workspace} {limit : Option Nat}

/-- A stream that reports each time an item is drawn. Its other events are not about renamers. -/
def watched (index : Nat) : Stream α → Stream α
  | .done => .done
  | .raise fault => .raise fault
  | .emit event rest =>
    if event.renamer? = none then .emit event (watched index rest) else watched index rest
  | .look rest => .look fun w => watched index (rest w)
  | .item a rest => .emit (.drawn index) (.item a (watched index rest))

theorem Quiet.watched {s : Stream α} (h : s.Quiet) (index : Nat) : (s.watched index).Quiet := by
  induction s with
  | done => trivial
  | raise fault => trivial
  | emit event rest ih =>
    rw [Stream.watched]
    split
    · exact ⟨h.1, ih h.2⟩
    · exact ih h.2
  | look rest ih => exact fun w => ih w (h w)
  | item a rest ih => exact ⟨rfl, ih h⟩

/-! ### Drawing some of the items -/

theorem draw_zero (s : Stream α) : s.draw w (some 0) = .nothing := by
  cases s <;> rfl

theorem draw_emit (h : limit ≠ some 0) (event : Event) (rest : Stream α) :
    (emit event rest).draw w limit =
      { rest.draw w limit with events := event :: (rest.draw w limit).events } := by
  rw [draw, if_neg h]

theorem draw_look (h : limit ≠ some 0) (next : Workspace → Stream α) :
    (look next).draw w limit = (next w).draw w limit := by
  rw [draw, if_neg h]

theorem draw_item (h : limit ≠ some 0) (a : α) (rest : Stream α) :
    (item a rest).draw w limit =
      { rest.draw w (limit.map (· - 1)) with
        items := a :: (rest.draw w (limit.map (· - 1))).items } := by
  rw [draw, if_neg h]

/-- A bound on the items cuts their list. -/
theorem items_draw_some (n : Nat) (s : Stream α) :
    (s.draw w (some n)).items = (s.draw w none).items.take n := by
  induction s generalizing n with
  | done => exact List.take_nil.symm
  | raise fault => cases n <;> rfl
  | emit event rest ih => cases n with
    | zero => rfl
    | succ n => exact ih (n + 1)
  | look rest ih => cases n with
    | zero => rfl
    | succ n => exact ih w (n + 1)
  | item a rest ih => cases n with
    | zero => rfl
    | succ n => exact congrArg (a :: ·) (ih n)

/-- The same items and the same fault, with a mark for every item. -/
structure Drawn.Watched (index : Nat) (d seen : Drawn α) : Prop where
  items : seen.items = d.items
  fault : seen.fault = d.fault
  marks : ∀ i, Event.about i seen.events =
    if i = index then List.replicate d.items.length (.drawn index) else []

theorem Drawn.watched_nothing (index : Nat) :
    (nothing : Drawn α).Watched index nothing :=
  ⟨rfl, rfl, fun _ => (ite_self _).symm⟩

theorem draw_watched (index : Nat) (limit : Option Nat) (s : Stream α) :
    (s.draw w limit).Watched index ((s.watched index).draw w limit) := by
  induction s generalizing limit with
  | done => exact Drawn.watched_nothing index
  | raise fault =>
    refine ⟨rfl, rfl, fun i => ?_⟩
    rw [watched, draw]
    split <;> exact (ite_self _).symm
  | emit event rest ih =>
    by_cases hlimit : limit = some 0
    · rw [hlimit, draw_zero, draw_zero]
      exact Drawn.watched_nothing index
    obtain ⟨hitems, hfault, hmarks⟩ := ih limit
    rw [draw_emit hlimit, watched]
    by_cases hevent : event.renamer? = none
    · rw [if_pos hevent, draw_emit hlimit]
      refine ⟨hitems, hfault, fun i => ?_⟩
      rw [Event.about_cons, hevent, if_neg (Option.some_ne_none i).symm, hmarks]
    · rw [if_neg hevent]
      exact ⟨hitems, hfault, hmarks⟩
  | look rest ih =>
    by_cases hlimit : limit = some 0
    · rw [hlimit, draw_zero, draw_zero]
      exact Drawn.watched_nothing index
    rw [watched, draw_look hlimit, draw_look hlimit]
    exact ih w limit
  | item a rest ih =>
    by_cases hlimit : limit = some 0
    · rw [hlimit, draw_zero, draw_zero]
      exact Drawn.watched_nothing index
    obtain ⟨hitems, hfault, hmarks⟩ := ih (limit.map (· - 1))
    rw [watched, draw_emit hlimit, draw_item hlimit, draw_item hlimit]
    refine ⟨congrArg (a :: ·) hitems, hfault, fun i => ?_⟩
    have hdrawn : (Event.drawn index).renamer? = some index := rfl
    rw [Event.about_cons, hmarks, hdrawn, List.length_cons, List.replicate_succ]
    by_cases hi : i = index
    · rw [if_pos hi, if_pos hi, if_pos (congrArg some hi.symm)]
    · rw [if_neg hi, if_neg hi, if_neg fun h => hi (Option.some.inj h).symm]

end Stream

/-- A renamer that reports when it is started and how far it is drawn. -/
def Renamer.watched (index : Nat) (r : Renamer) : Renamer :=
  { r with
    steps := fun s offset newName =>
      .emit (.started index) ((r.steps s offset newName).watched index)
    quiet := fun s offset newName => ⟨rfl, (r.quiet s offset newName).watched index⟩ }

/-- A renamer with a fixed range and fixed steps that reports nothing. -/
def Renamer.fixed (name : String) (range? : Option ByteRange) (steps : List Step) : Renamer :=
  { name, range? := fun _ _ => range?, steps := fun _ _ _ => .ofList steps,
    quiet := fun _ _ _ => Stream.emits_ofList steps }

theorem Renamer.scripted_eq_watched (name : String) (index : Nat) (range? : Option ByteRange)
    (steps : List Step) :
    scripted name index range? steps = (fixed name range? steps).watched index := by
  have hobserved : observed index steps = (Stream.ofList steps).watched index := by
    induction steps with
    | nil => rfl
    | cons step steps ih => rw [observed, ih]; rfl
  unfold scripted watched
  simp only [hobserved]
  rfl

namespace Chain

variable {w : Workspace} {s : Source} {offset : Int} {newName : Json} {limit : Option Nat}

/-- A stream that a chain commits to starts with an edit. A fault in place of the first item is
not caught. -/
def Commits (d : Stream.Drawn Step) : Prop :=
  (∃ e rest, d.items = .edit e :: rest) ∨ d.items = [] ∧ d.fault ≠ none

theorem not_commits_iff {d : Stream.Drawn Step} : ¬Commits d ↔ Passed d := by
  obtain ⟨items, events, fault⟩ := d
  cases items with
  | nil => simp [Commits, Passed]
  | cons step rest => cases step <;> simp [Commits, Passed]

/-! ### One renamer -/

section Commit

variable {stream : Stream Step} (hlimit : limit ≠ some 0) (name : String)
  (otherwise : Option Failure → Stream Step)

include hlimit

/-- A stream that is passed over is drawn from once, and the others go on with what it said. -/
theorem draw_commit_passed (h : Passed (stream.draw w (some 1))) :
    ∃ text last, last.map Step.failure = (stream.draw w (some 1)).items.getLast? ∧
      (commit name otherwise stream).draw w limit =
        let o := (otherwise last).draw w limit
        ⟨o.items, (stream.draw w (some 1)).events ++ .debug text :: o.events, o.fault⟩ := by
  induction stream with
  | done => exact ⟨_, none, rfl, Stream.draw_emit hlimit ..⟩
  | raise fault =>
    rcases h with ⟨-, hfault⟩ | ⟨failure, rest, hitems⟩
    · cases hfault
    · cases hitems
  | emit event next ih =>
    obtain ⟨text, last, hlast, hdraw⟩ := ih h
    refine ⟨text, last, hlast, ?_⟩
    rw [commit, Stream.draw_emit hlimit, hdraw]
    rfl
  | look next ih =>
    obtain ⟨text, last, hlast, hdraw⟩ := ih w h
    refine ⟨text, last, hlast, ?_⟩
    rw [commit, Stream.draw_look hlimit, hdraw]
    rfl
  | item step next ih =>
    have hfirst : (Stream.item step next).draw w (some 1) = ⟨[step], [], none⟩ := by
      rw [Stream.draw_item (by decide), Option.map_some, Stream.draw_zero]
      rfl
    rw [hfirst] at h ⊢
    cases step with
    | failure failure => exact ⟨_, some failure, rfl, Stream.draw_emit hlimit ..⟩
    | edit e =>
      rcases h with ⟨hitems, -⟩ | ⟨failure, rest, hitems⟩
      · cases hitems
      · cases hitems

/-- A stream that is committed to is drawn as it is. -/
theorem draw_commit_commits (h : Commits (stream.draw w (some 1))) :
    let d := stream.draw w limit
    let c := (commit name otherwise stream).draw w limit
    c.items = d.items ∧ c.fault = d.fault ∧
      ∀ i, Event.about i c.events = Event.about i d.events := by
  induction stream with
  | done =>
    rcases h with ⟨e, rest, hitems⟩ | ⟨-, hfault⟩
    · cases hitems
    · exact absurd rfl hfault
  | raise fault => exact ⟨rfl, rfl, fun _ => rfl⟩
  | emit event next ih =>
    obtain ⟨hitems, hfault, habout⟩ := ih h
    rw [commit, Stream.draw_emit hlimit, Stream.draw_emit hlimit]
    refine ⟨hitems, hfault, fun i => ?_⟩
    rw [Event.about_cons, Event.about_cons, habout]
  | look next ih =>
    rw [commit, Stream.draw_look hlimit, Stream.draw_look hlimit]
    exact ih w h
  | item step next ih =>
    cases step with
    | failure failure =>
      rw [Stream.draw_item (by decide)] at h
      rcases h with ⟨e, rest, hitems⟩ | ⟨hitems, -⟩
      · cases hitems
      · cases hitems
    | edit e =>
      rw [commit, Stream.draw_emit hlimit]
      exact ⟨rfl, rfl, fun i => Event.about_debug ..⟩

end Commit

/-! ### The renamers of a chain -/

/-- What a renamer says when a chain asks it for one step, if it applies. -/
def asked (w : Workspace) (s : Source) (offset : Int) (newName : Json) (r : Renamer) :
    Stream.Drawn Step :=
  if (r.range? s offset).isSome then (r.steps s offset newName).draw w (some 1) else .nothing

theorem asked_of_some {r : Renamer} {range : ByteRange} (h : r.range? s offset = some range) :
    asked w s offset newName r = (r.steps s offset newName).draw w (some 1) := by
  rw [asked, h]
  rfl

theorem asked_of_none {r : Renamer} (h : r.range? s offset = none) :
    asked w s offset newName r = .nothing := by
  rw [asked, h]
  rfl

/-- The renamers that a chain passes over are asked in order. What comes after them goes on with
the last failure. -/
theorem draw_delegate_passed (hlimit : limit ≠ some 0) {before : List Renamer}
    (hbefore : ∀ r ∈ before, Passed (asked w s offset newName r)) (rest : List Renamer)
    (last : Option Failure) :
    ∃ next, next.map Step.failure =
        (before.flatMap fun r => (asked w s offset newName r).items).getLast?.or
          (last.map Step.failure) ∧
      let d := (delegate s offset newName last (before ++ rest)).draw w limit
      let o := (delegate s offset newName next rest).draw w limit
      d.items = o.items ∧ d.fault = o.fault ∧ ∀ i, Event.about i d.events =
        (before.flatMap fun r => Event.about i (asked w s offset newName r).events) ++
          Event.about i o.events := by
  induction before generalizing last with
  | nil => exact ⟨last, rfl, rfl, rfl, fun _ => rfl⟩
  | cons r before ih =>
    obtain ⟨hr, hbefore⟩ := List.forall_mem_cons.mp hbefore
    rw [List.cons_append, delegate]
    simp only [List.flatMap_cons]
    cases hrange : r.range? s offset with
    | none =>
      rw [asked_of_none hrange]
      exact ih hbefore last
    | some range =>
      rw [asked_of_some hrange] at hr ⊢
      obtain ⟨text, f, hf, hdraw⟩ := draw_commit_passed hlimit r.name
        (fun f => delegate s offset newName (f.or last) (before ++ rest)) hr
      -- A failure of this renamer takes the place of the last one.
      obtain ⟨next, hnext, hitems, hfault, habout⟩ := ih hbefore (f.or last)
      refine ⟨next, ?_, ?_⟩
      · rw [hnext, List.getLast?_append, Option.or_assoc, ← hf, Option.map_or]
      · rw [hdraw]
        refine ⟨hitems, hfault, fun i => ?_⟩
        rw [Event.about_append, Event.about_debug, habout, List.append_assoc]

theorem draw_delegate_commits (hlimit : limit ≠ some 0) {r : Renamer}
    (h : Commits (asked w s offset newName r)) (after : List Renamer) (last : Option Failure) :
    let d := (r.steps s offset newName).draw w limit
    let c := (delegate s offset newName last (r :: after)).draw w limit
    c.items = d.items ∧ c.fault = d.fault ∧
      ∀ i, Event.about i c.events = Event.about i d.events := by
  rw [delegate]
  cases hrange : r.range? s offset with
  | none =>
    rw [asked_of_none hrange] at h
    exact absurd h (not_commits_iff.mpr (.inl ⟨rfl, rfl⟩))
  | some range =>
    rw [asked_of_some hrange] at h
    exact draw_commit_commits hlimit r.name _ h

/-- A chain that commits to a renamer asks those before it and draws from it. -/
theorem draw_chain_commits (hlimit : limit ≠ some 0) {before : List Renamer} {r : Renamer}
    (hbefore : ∀ other ∈ before, Passed (asked w s offset newName other))
    (hr : Commits (asked w s offset newName r)) (after : List Renamer) :
    let d := (r.steps s offset newName).draw w limit
    let c := ((renamer (before ++ r :: after)).steps s offset newName).draw w limit
    c.items = d.items ∧ c.fault = d.fault ∧ ∀ i, Event.about i c.events =
      (before.flatMap fun other => Event.about i (asked w s offset newName other).events) ++
        Event.about i d.events := by
  obtain ⟨last, -, hitems, hfault, habout⟩ :=
    draw_delegate_passed hlimit hbefore (r :: after) none
  obtain ⟨hitems', hfault', habout'⟩ := draw_delegate_commits hlimit hr after last
  refine ⟨hitems.trans hitems', hfault.trans hfault', fun i => ?_⟩
  rw [← habout' i]
  exact habout i

/-- A chain that passes over all its renamers asks each of them and fails. -/
theorem draw_chain_passed (hlimit : limit ≠ some 0) {renamers : List Renamer}
    (h : ∀ r ∈ renamers, Passed (asked w s offset newName r)) :
    let c := ((renamer renamers).steps s offset newName).draw w limit
    (∃ failure, c.items = [.failure failure] ∧ .failure failure =
        (renamers.flatMap fun r => (asked w s offset newName r).items).getLast?.getD
          (.failure ⟨s!"Could not find a renamer for the symbol at offset {offset}",
            .noRenamer⟩)) ∧
      c.fault = none ∧ ∀ i, Event.about i c.events =
        renamers.flatMap fun r => Event.about i (asked w s offset newName r).events := by
  obtain ⟨last, hlast, hitems, hfault, habout⟩ := draw_delegate_passed hlimit h [] none
  rw [Option.map_none, Option.or_none] at hlast
  rw [List.append_nil, delegate, Stream.draw_item hlimit, Stream.draw] at hitems hfault habout
  refine ⟨⟨_, hitems, ?_⟩, hfault, fun i => (habout i).trans (List.append_nil _)⟩
  rw [← hlast]
  cases last <;> rfl

/-! ### Watched renamers -/

section Watched

variable (w : Workspace) (s : Source) (offset : Int) (newName : Json)

theorem draw_steps_watched (hlimit : limit ≠ some 0) (index : Nat) (r : Renamer) :
    let d := (r.steps s offset newName).draw w limit
    let seen := ((r.watched index).steps s offset newName).draw w limit
    seen.items = d.items ∧ seen.fault = d.fault ∧ ∀ i, Event.about i seen.events =
      if i = index then Event.pulls index d.items.length else [] := by
  obtain ⟨hitems, hfault, hmarks⟩ := Stream.draw_watched (w := w) index limit
    (r.steps s offset newName)
  have hstarted : (Event.started index).renamer? = some index := rfl
  intro d seen
  have hseen : seen = _ := Stream.draw_emit hlimit ..
  rw [hseen]
  refine ⟨hitems, hfault, fun i => ?_⟩
  rw [Event.about_cons, hmarks, hstarted]
  by_cases hi : i = index
  · rw [if_pos (congrArg some hi.symm), if_pos hi, if_pos hi]
    rfl
  · rw [if_neg fun h => hi (Option.some.inj h).symm, if_neg hi, if_neg hi]

theorem asked_watched (index : Nat) (r : Renamer) :
    let d := asked w s offset newName r
    let seen := asked w s offset newName (r.watched index)
    seen.items = d.items ∧ seen.fault = d.fault ∧ ∀ i, Event.about i seen.events =
      if i = index ∧ (r.range? s offset).isSome then Event.pulls index d.items.length else [] := by
  cases hrange : r.range? s offset with
  | none =>
    rw [asked_of_none (r := r.watched index) hrange, asked_of_none hrange]
    exact ⟨rfl, rfl, fun i => (if_neg (by simp)).symm⟩
  | some range =>
    rw [asked_of_some (r := r.watched index) hrange, asked_of_some hrange]
    simp only [Option.isSome_some, and_true]
    have hone : some 1 ≠ some 0 := by decide
    exact draw_steps_watched w s offset newName hone index r

end Watched

theorem length_items_asked_le (r : Renamer) : (asked w s offset newName r).items.length ≤ 1 := by
  rw [asked]
  split
  · rw [Stream.items_draw_some]
    exact List.length_take_le ..
  · exact Nat.zero_le 1

theorem commits_watched {index : Nat} {r : Renamer} :
    Commits (asked w s offset newName (r.watched index)) ↔
      Commits (asked w s offset newName r) := by
  obtain ⟨hitems, hfault, -⟩ := asked_watched w s offset newName index r
  rw [Commits, Commits, hitems, hfault]

/-- Among lists by index, only the one at the index has something about it. -/
theorem flatMap_mapIdx_at {α β γ : Type} {f : Nat → α → β} {g : β → List γ} {i : Nat}
    (h : ∀ k a, k ≠ i → g (f k a) = []) (l : List α) :
    (l.mapIdx f).flatMap g = (l[i]?.map fun a => g (f i a)).getD [] := by
  induction l using List.reverseRecOn with
  | nil => rfl
  | append_singleton l a ih =>
    rw [List.mapIdx_concat, List.flatMap_append, ih, List.flatMap_singleton]
    rcases Nat.lt_trichotomy i l.length with hi | rfl | hi
    · rw [List.getElem?_append_left hi, h _ a (Nat.ne_of_gt hi), List.append_nil]
    · rw [List.getElem?_eq_none (Nat.le_refl _), List.getElem?_concat_length]
      rfl
    · rw [List.getElem?_eq_none (Nat.le_of_lt hi), h _ a (Nat.ne_of_lt hi),
        List.getElem?_eq_none (by rw [List.length_append]; exact hi)]
      rfl

/-- All renamers, each watched under its place. -/
def watchAll (renamers : List Renamer) : List Renamer := renamers.mapIdx Renamer.watched

/-- A renamer that was asked for one step if it applies, and not started if it does not. -/
def AskedOnce (s : Source) (offset : Int) (events : List Event) (index : Nat) (r : Renamer) :
    Prop :=
  if (r.range? s offset).isSome then ∃ k ≤ 1, Event.about index events = Event.pulls index k
  else Event.about index events = []

theorem askedOnce_of_about {events : List Event} {index : Nat} {r : Renamer}
    (h : Event.about index events =
      Event.about index (asked w s offset newName (r.watched index)).events) :
    AskedOnce s offset events index r := by
  rw [(asked_watched w s offset newName index r).2.2] at h
  rw [AskedOnce]
  split
  · next happlies =>
    rw [if_pos ⟨rfl, happlies⟩] at h
    exact ⟨_, length_items_asked_le r, h⟩
  · next happlies => rwa [if_neg fun hboth => happlies hboth.2] at h

theorem passed_watchAll {before : List Renamer}
    (h : ∀ r ∈ before, ¬Commits (asked w s offset newName r)) :
    ∀ r ∈ watchAll before, Passed (asked w s offset newName r) := by
  intro r hr
  obtain ⟨i, hi, rfl⟩ := List.mem_mapIdx.mp hr
  exact not_commits_iff.mp (mt commits_watched.mp (h _ (List.getElem_mem hi)))

theorem watchAll_append (before : List Renamer) (r : Renamer) (after : List Renamer) :
    ∃ rest, watchAll (before ++ r :: after) =
      watchAll before ++ r.watched before.length :: rest :=
  ⟨_, by rw [watchAll, List.mapIdx_append, List.mapIdx_cons, Nat.zero_add]; rfl⟩

theorem about_watchAll (before : List Renamer) (i : Nat) :
    ((watchAll before).flatMap fun r => Event.about i (asked w s offset newName r).events) =
      (before[i]?.map fun r =>
        Event.about i (asked w s offset newName (r.watched i)).events).getD [] :=
  flatMap_mapIdx_at (fun k r hk => by
    rw [(asked_watched w s offset newName k r).2.2, if_neg fun hboth => hk hboth.1.symm]) before

theorem items_watchAll (renamers : List Renamer) :
    ((watchAll renamers).flatMap fun r => (asked w s offset newName r).items) =
      renamers.flatMap fun r => (asked w s offset newName r).items := by
  induction renamers using List.reverseRecOn with
  | nil => rfl
  | append_singleton renamers r ih =>
    rw [watchAll, List.mapIdx_concat, List.flatMap_append, List.flatMap_append, ← watchAll, ih,
      List.flatMap_singleton, List.flatMap_singleton, (asked_watched ..).1]

/-- A chain commits to the first renamer that it can commit to, or to none. -/
theorem commits_cases (w : Workspace) (s : Source) (offset : Int) (newName : Json)
    (renamers : List Renamer) :
    (∀ r ∈ renamers, ¬Commits (asked w s offset newName r)) ∨
      ∃ before r after, renamers = before ++ r :: after ∧ Commits (asked w s offset newName r) ∧
        ∀ other ∈ before, ¬Commits (asked w s offset newName other) := by
  classical
  cases hfind : renamers.find? fun r => Commits (asked w s offset newName r) with
  | none => exact .inl fun r hr => by simpa using List.find?_eq_none.mp hfind r hr
  | some r =>
    obtain ⟨hr, before, after, hsplit, hbefore⟩ := List.find?_eq_some_iff_append.mp hfind
    exact .inr ⟨before, r, after, hsplit, by simpa using hr, by simpa using hbefore⟩

/-- Watching the renamers of a chain does not change what comes out of it. -/
theorem draw_watchAll (w : Workspace) (s : Source) (offset : Int) (newName : Json)
    (hlimit : limit ≠ some 0) (renamers : List Renamer) :
    let chain := ((renamer renamers).steps s offset newName).draw w limit
    let seen := ((renamer (watchAll renamers)).steps s offset newName).draw w limit
    seen.items = chain.items ∧ seen.fault = chain.fault := by
  rcases commits_cases w s offset newName renamers with
    hpassed | ⟨before, r, after, rfl, hr, hbefore⟩
  · obtain ⟨⟨failure, hitems, hfailure⟩, hfault, -⟩ := draw_chain_passed hlimit
      fun r hr => not_commits_iff.mp (hpassed r hr)
    obtain ⟨⟨failure', hitems', hfailure'⟩, hfault', -⟩ :=
      draw_chain_passed hlimit (passed_watchAll hpassed)
    rw [items_watchAll, ← hfailure] at hfailure'
    rw [hfailure', ← hitems] at hitems'
    exact ⟨hitems', hfault'.trans hfault.symm⟩
  · obtain ⟨hitems, hfault, -⟩ := draw_chain_commits hlimit
      (fun other hother => not_commits_iff.mp (hbefore other hother)) hr after
    obtain ⟨rest, hrest⟩ := watchAll_append before r after
    obtain ⟨hitems', hfault', -⟩ := draw_chain_commits hlimit (passed_watchAll hbefore)
      (commits_watched.mpr hr) rest
    obtain ⟨hsteps, hend, -⟩ := draw_steps_watched w s offset newName hlimit before.length r
    rw [hrest]
    exact ⟨hitems'.trans (hsteps.trans hitems.symm), hfault'.trans (hend.trans hfault.symm)⟩

/-- What is seen of the renamers of a chain that commits to one of them. -/
theorem about_chain_commits (hlimit : limit ≠ some 0) {before : List Renamer} {r : Renamer}
    (hbefore : ∀ other ∈ before, ¬Commits (asked w s offset newName other))
    (hr : Commits (asked w s offset newName r)) (after : List Renamer) (i : Nat) :
    let seen := ((renamer (watchAll (before ++ r :: after))).steps s offset newName).draw w limit
    Event.about i seen.events =
      (before[i]?.map fun other =>
        Event.about i (asked w s offset newName (other.watched i)).events).getD [] ++
      if i = before.length then
        Event.pulls i ((r.steps s offset newName).draw w limit).items.length
      else [] := by
  obtain ⟨rest, hrest⟩ := watchAll_append before r after
  obtain ⟨-, -, habout⟩ := draw_chain_commits hlimit (passed_watchAll hbefore)
    (commits_watched.mpr hr) rest
  obtain ⟨-, -, hpulls⟩ := draw_steps_watched w s offset newName hlimit before.length r
  rw [hrest]
  intro seen
  rw [habout i, about_watchAll, hpulls]
  split
  · next hi => rw [hi]
  · rfl

/-- Drawing from a chain. The first renamer that applies and starts with an edit is the one that
the chain draws from, step by step; those before it are asked for one step, and those after it
are left alone. If there is no such renamer, the chain says what the last one said that was asked
and said something. -/
theorem delegates_to_one (renamers : List Renamer) (s : Source) (offset : Int) (newName : Json)
    (w : Workspace) {n : Nat} (hn : 1 ≤ n) :
    let chain := ((renamer renamers).steps s offset newName).draw w (some n)
    let seen := ((renamer (watchAll renamers)).steps s offset newName).draw w (some n)
    seen.items = chain.items ∧ seen.fault = chain.fault ∧
      (∀ before r after, renamers = before ++ r :: after →
        Commits (asked w s offset newName r) →
        (∀ other ∈ before, ¬Commits (asked w s offset newName other)) →
          let stream := r.steps s offset newName
          chain.items = (stream.draw w (some n)).items ∧
          chain.fault = (stream.draw w (some n)).fault ∧
          Event.about before.length seen.events =
            Event.pulls before.length (min n (stream.draw w none).items.length) ∧
          ∀ i other, renamers[i]? = some other →
            (i < before.length → AskedOnce s offset seen.events i other) ∧
            (before.length < i → Event.about i seen.events = [])) ∧
      ((∀ r ∈ renamers, ¬Commits (asked w s offset newName r)) →
        (∃ failure, chain.items = [.failure failure] ∧ .failure failure =
          (renamers.flatMap fun r => (asked w s offset newName r).items).getLast?.getD
            (.failure ⟨s!"Could not find a renamer for the symbol at offset {offset}",
              .noRenamer⟩)) ∧
        chain.fault = none ∧
        ∀ i r, renamers[i]? = some r → AskedOnce s offset seen.events i r) := by
  intro chain seen
  have hlimit : some n ≠ some 0 := fun h => absurd (Option.some.inj h) (by omega)
  obtain ⟨hsame, hend⟩ := draw_watchAll w s offset newName hlimit renamers
  refine ⟨hsame, hend, ?_, ?_⟩
  · rintro before r after rfl hr hbefore stream
    obtain ⟨hitems, hfault, -⟩ := draw_chain_commits hlimit
      (fun other hother => not_commits_iff.mp (hbefore other hother)) hr after
    have habout := about_chain_commits hlimit hbefore hr after
    refine ⟨hitems, hfault, ?_, fun i other hother => ⟨fun hi => ?_, fun hi => ?_⟩⟩
    · rw [habout, if_pos rfl, List.getElem?_eq_none (Nat.le_refl _), Stream.items_draw_some,
        List.length_take]
      rfl
    · rw [List.getElem?_append_left hi] at hother
      have hasked : Event.about i seen.events =
          Event.about i (asked w s offset newName (other.watched i)).events := by
        rw [habout, if_neg (Nat.ne_of_lt hi), List.append_nil, hother]
        rfl
      exact askedOnce_of_about hasked
    · rw [habout, if_neg (Nat.ne_of_gt hi), List.getElem?_eq_none (Nat.le_of_lt hi)]
      rfl
  · intro hpassed
    obtain ⟨hfailure, hfault, -⟩ := draw_chain_passed hlimit
      fun r hr => not_commits_iff.mp (hpassed r hr)
    obtain ⟨-, -, habout⟩ := draw_chain_passed hlimit (passed_watchAll hpassed)
    refine ⟨hfailure, hfault, fun i r hr => ?_⟩
    have hasked : Event.about i seen.events =
        Event.about i (asked w s offset newName (r.watched i)).events := by
      rw [habout i, about_watchAll, hr]
      rfl
    exact askedOnce_of_about hasked

/-- Two steps from a chain of five renamers: one that does not apply, an empty one, one that
fails, one that fails after an edit, and one that would not. -/
theorem delegates_to_one_fourth :
    let here : Option ByteRange := some ⟨0, 1, by decide⟩
    let edit : Nat → Step := fun k => .edit ⟨.str "a", ⟨k, k, Nat.le_refl k⟩, "x"⟩
    let failure : Step := .failure ⟨"no", .notRenamable⟩
    let renamers : List Renamer :=
      [.fixed "R" none [edit 0], .fixed "R" here [], .fixed "R" here [failure, edit 1],
        .fixed "R" here [edit 2, failure, edit 3], .fixed "R" here [edit 4]]
    let observed : List Renamer :=
      [.scripted "R" 0 none [edit 0], .scripted "R" 1 here [],
        .scripted "R" 2 here [failure, edit 1],
        .scripted "R" 3 here [edit 2, failure, edit 3], .scripted "R" 4 here [edit 4]]
    let chain := ((renamer renamers).steps ⟨.str "a", "x"⟩ 0 (.str "y")).draw ⟨[]⟩ (some 2)
    let seen := ((renamer observed).steps ⟨.str "a", "x"⟩ 0 (.str "y")).draw ⟨[]⟩ (some 2)
    chain.items = [edit 2, failure] ∧ seen.items = chain.items ∧
      Event.about 3 seen.events = Event.pulls 3 2 ∧ Event.about 4 seen.events = [] ∧
      Event.about 0 seen.events = [] ∧ ∃ k ≤ 1, Event.about 2 seen.events = Event.pulls 2 k := by
  intro here edit failure renamers observed chain seen
  have hobserved : observed = watchAll renamers := by
    simp only [observed, Renamer.scripted_eq_watched]
    rfl
  obtain ⟨hsame, -, hcommits, -⟩ :=
    delegates_to_one renamers ⟨.str "a", "x"⟩ 0 (.str "y") ⟨[]⟩ (n := 2) (by decide)
  rw [← hobserved] at hsame hcommits
  obtain ⟨hitems, -, hpulls, hothers⟩ := hcommits
    [.fixed "R" none [edit 0], .fixed "R" here [], .fixed "R" here [failure, edit 1]] _ _ rfl
    (.inl ⟨_, _, rfl⟩) <| by
      refine List.forall_mem_cons.mpr ⟨?_, List.forall_mem_cons.mpr ⟨?_,
        List.forall_mem_singleton.mpr ?_⟩⟩
      · exact not_commits_iff.mpr (.inl ⟨rfl, rfl⟩)
      · exact not_commits_iff.mpr (.inl ⟨rfl, rfl⟩)
      · exact not_commits_iff.mpr (.inr ⟨_, _, rfl⟩)
  exact ⟨hitems, hsame, hpulls, (hothers 4 _ rfl).2 (by decide), (hothers 0 _ rfl).1 (by decide),
    (hothers 2 _ rfl).1 (by decide)⟩

end Chain

end RenameServer
