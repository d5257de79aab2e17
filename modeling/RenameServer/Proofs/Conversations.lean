import RenameServer.Proofs.Delivery

/-!
What a conversation comes to. However the input is cut into pieces, the bodies
before the end make the workspace, and the jobs that are started are those of their
requests in order. Every request is served in some workspace on the way. If the
session does not fail, the replies are those of the requests served, in some order;
if it fails, some of them may be missing. Where messages come one at a time, none is
missing and the order is that of the requests.
-/
namespace RenameServer

open Utf8 (Bytes)
open Event Job

/-- A session that has failed, for whatever reason. -/
def Status.Failed (status : Status) : Prop := ∃ fault, status = .failed fault

namespace Session

/-! ### Requests that are served -/

section

variable {server : Server} (hserver : server.Replying)

include hserver

/-- A request gets one reply under its id, or its job is ended by a fault. -/
theorem Arrival.reply?_cases (a : Arrival) (disk : Disk) :
    replies ((a.job server).run disk alone 0 a.workspace).events =
        (a.reply? server disk).toList ∧
      ((∃ message, a.reply? server disk = some (a.request.id, message)) ∧
          (a.job server).outcome disk a.workspace = .ok () ∨
        a.reply? server disk = none ∧
          ∃ fault, (a.job server).outcome disk a.workspace = .error fault) := by
  have hanswers := (hserver.answers_answer a.shuttingDown a.request.id a.request.method
    a.request.params).stopAt server.fails Server.unwritable
  rw [Arrival.reply?]
  rcases hanswers.cases disk 0 a.workspace with ⟨message, hreplies, hok⟩ | ⟨hreplies, hfault⟩
  · rw [Arrival.job, hreplies]
    exact ⟨rfl, .inl ⟨⟨message, rfl⟩, hok⟩⟩
  · rw [Arrival.job, hreplies]
    exact ⟨rfl, .inr ⟨rfl, hfault⟩⟩

theorem Arrival.id_of_reply? {a : Arrival} {disk : Disk} {reply : Json × Json}
    (h : a.reply? server disk = some reply) : reply.1 = a.request.id := by
  rcases (a.reply?_cases hserver disk).2 with ⟨⟨message, hsome⟩, -⟩ | ⟨hnone, -⟩
  · rw [← Option.some.inj (hsome.symm.trans h)]
  · cases hnone.symm.trans h

theorem Arrival.outcome_eq_ok_iff {a : Arrival} {disk : Disk} :
    (∃ u, (a.job server).outcome disk a.workspace = .ok u) ↔ a.reply? server disk ≠ none := by
  rcases (a.reply?_cases hserver disk).2 with ⟨⟨message, hsome⟩, hok⟩ | ⟨hnone, fault, hfault⟩
  · exact iff_of_true ⟨(), hok⟩ (by rw [hsome]; nofun)
  · refine iff_of_false ?_ (not_not_intro hnone)
    rintro ⟨u, hok⟩
    cases hok.symm.trans hfault

end

/-- The requests of a stage, in the workspace in which they run. -/
def Stage.served (s : Stage) : List Arrival :=
  s.taken.arrivals.map (Arrival.movedTo s.taken.workspace)

section

variable {server : Server} (hserver : server.Replying) {disk : Disk} {s : Stage}

include hserver

theorem Stage.repliesApart_jobs :
    repliesApart disk s.taken.workspace (s.jobs server) =
      s.served.filterMap (Arrival.reply? server disk) := by
  rw [repliesApart, Stage.jobs, List.flatMap_map, Stage.served, List.filterMap_map,
    List.filterMap_eq_flatMap_toList]
  exact List.flatMap_congr fun a _ =>
    ((a.movedTo s.taken.workspace).reply?_cases hserver disk).1

/-- No job of a stage fails if all its requests get a reply. -/
theorem Stage.fault_run_eq_none :
    (s.run server disk).2 = none ↔ ∀ a ∈ s.served, a.reply? server disk ≠ none := by
  change (firstFailure _).map Prod.snd = none ↔ _
  rw [Option.map_eq_none_iff, firstFailure_slices, Stage.jobs, Stage.served, List.forall_mem_map,
    List.forall_mem_map]
  exact forall₂_congr fun a _ =>
    Arrival.outcome_eq_ok_iff hserver (a := a.movedTo s.taken.workspace)

theorem Stage.replies_subperm :
    (replies (s.run server disk).1).Subperm (s.served.filterMap (Arrival.reply? server disk)) := by
  rw [← Stage.repliesApart_jobs hserver]
  exact replies_together_subperm _ _

/-- Where the session does not fail, no request is cut off. -/
theorem Stage.replies_perm (h : ¬ (settled s.status (s.run server disk).2).Failed) :
    (replies (s.run server disk).1).Perm (s.served.filterMap (Arrival.reply? server disk)) := by
  rw [← Stage.repliesApart_jobs hserver]
  apply replies_together_perm
  generalize hfailure : firstFailure ((s.jobs server).map (slices disk s.taken.workspace)) = failure
  have hfault : (s.run server disk).2 = failure.map Prod.snd := by
    rw [← hfailure]
    rfl
  rw [hfault] at h
  cases hstatus : s.status with
  | running => cases failure <;> rfl
  | ended =>
    cases failure with
    | none => rfl
    | some failure =>
      rw [hstatus] at h
      exact absurd ⟨_, rfl⟩ h
  | failed fault =>
    rw [hstatus] at h
    exact absurd ⟨fault, by cases failure <;> rfl⟩ h

end

/-! ### The stages of a conversation -/

section

variable {server : Server} {w : Workspace} {down closed : Bool}

/-- Only the last stage can end the session. -/
theorem status_of_mem_stages {groups : List (List Bytes × Bool)} {s : Stage}
    (h : s ∈ stages server w down groups) :
    s.status = .running ∨ (stages server w down groups).getLast? = some s := by
  induction groups generalizing w down with
  | nil => cases h
  | cons piece rest ih =>
    obtain ⟨group, closed⟩ := piece
    generalize ht : absorb server w down group = t
    by_cases hrun : atEnd server closed t.status = .running
    · rw [stages_running ht hrun] at h ⊢
      rcases List.mem_cons.mp h with rfl | h
      · exact .inl rfl
      · refine (ih h).imp_right fun hlast => ?_
        rw [List.getLast?_cons, hlast]
        rfl
    · rw [stages_stopped ht hrun] at h ⊢
      obtain rfl := List.mem_singleton.mp h
      exact .inr rfl

/-- All stages together take in what the bodies lead to. -/
theorem stages_absorb (groups : List (List Bytes)) (group : List Bytes) :
    let t := absorb server w down (groups.flatten ++ group)
    let ss := stages server w down (groups.map (·, false) ++ [(group, closed)])
    (ss.flatMap fun s => s.taken.arrivals) = t.arrivals ∧
      ∃ s, ss.getLast? = some s ∧ s.taken.workspace = t.workspace ∧
        s.taken.shuttingDown = t.shuttingDown ∧ s.status = atEnd server closed t.status := by
  induction groups generalizing w down with
  | nil =>
    intro t ss
    have hss : ss = [⟨t, atEnd server closed t.status⟩] := stages_singleton rfl closed
    rw [hss]
    exact ⟨List.append_nil _, _, rfl, rfl, rfl, rfl⟩
  | cons first groups ih =>
    intro t ss
    generalize ht : absorb server w down first = t₁
    by_cases hrun : t₁.status = .running
    · have hgoes : atEnd server false t₁.status = .running := by rw [hrun]; rfl
      have hss : ss = ⟨t₁, .running⟩ :: stages server t₁.workspace t₁.shuttingDown
          (groups.map (·, false) ++ [(group, closed)]) := stages_running ht hgoes _
      have habsorb : t = _ := (congrArg (absorb server w down) (List.append_assoc ..)).trans
        (absorb_append_running ht hrun (groups.flatten ++ group))
      obtain ⟨iharrivals, s, hlast, hworkspace, hdown, hstatus⟩ :=
        @ih t₁.workspace t₁.shuttingDown
      rw [hss, habsorb]
      refine ⟨congrArg (t₁.arrivals ++ ·) iharrivals, s, ?_, hworkspace, hdown, hstatus⟩
      rw [List.getLast?_cons, hlast]
      rfl
    · have hstop : atEnd server false t₁.status = t₁.status := atEnd_of_ne_running hrun server false
      have hss : ss = [⟨t₁, t₁.status⟩] := by
        rw [← hstop]
        exact (stages_stopped ht (by rwa [hstop]) _).trans (by rw [hstop])
      have habsorb : t = t₁ := (congrArg (absorb server w down) (List.append_assoc ..)).trans
        (absorb_append_stopped ht hrun (groups.flatten ++ group))
      rw [hss, habsorb]
      exact ⟨List.append_nil _, _, rfl, rfl, rfl, (atEnd_of_ne_running hrun server closed).symm⟩

end

/-! ### The outcome -/

/-- What a conversation comes to that has taken in some bodies: their workspace, the jobs
of their requests, and the replies to the requests served. -/
structure Concluded (server : Server) (disk : Disk) (t : Absorbed) (stop : Status)
    (served : List Arrival) (outcome : Session × List Event) (begun : List (Job Unit)) : Prop where
  workspace : outcome.1.workspace = t.workspace
  shuttingDown : outcome.1.shuttingDown = t.shuttingDown
  started : begun = t.arrivals.map (Arrival.job server)
  arrived : List.Forall₂ (fun a b => b = a.movedTo b.workspace) t.arrivals served
  replies : (replies outcome.2).Subperm (served.filterMap (Arrival.reply? server disk))
  complete : ¬ outcome.1.status.Failed →
    (Event.replies outcome.2).Perm (served.filterMap (Arrival.reply? server disk))
  status : outcome.1.status = stop ∨ stop = .ended ∧ outcome.1.status.Failed ∧
    ∃ a ∈ served, a.reply? server disk = none

/-- Requests that are all replied to have replies under all of their ids. -/
theorem ids_of_replied {server : Server} {disk : Disk} {served : List Arrival}
    (h : ∀ a ∈ served, ∃ message, a.reply? server disk = some (a.request.id, message)) :
    (served.filterMap (Arrival.reply? server disk)).map Prod.fst =
      (served.map Arrival.request).map Request.id := by
  induction served with
  | nil => rfl
  | cons a served ih =>
    obtain ⟨⟨message, ha⟩, hrest⟩ := List.forall_mem_cons.mp h
    rw [List.filterMap_cons_some ha, List.map_cons, List.map_cons, List.map_cons, ih hrest]

/-- Requests that are served are those that have arrived, but for the workspace. -/
theorem Concluded.map_eq {server : Server} {disk : Disk} {t : Absorbed} {stop : Status}
    {served : List Arrival} {outcome : Session × List Event} {begun : List (Job Unit)}
    (h : Concluded server disk t stop served outcome begun) {β : Type} {f : Arrival → β}
    (hf : ∀ a w, f (a.movedTo w) = f a) : served.map f = t.arrivals.map f := by
  have hall : List.Forall₂ (· = ·) (served.map f) (t.arrivals.map f) := by
    rw [List.forall₂_map_left_iff, List.forall₂_map_right_iff]
    refine (h.arrived.imp fun a b hmoved => ?_).flip
    rw [hmoved]
    exact hf a b.workspace
  rwa [List.forall₂_eq_eq_eq] at hall

theorem Concluded.requests {server : Server} {disk : Disk} {t : Absorbed} {stop : Status}
    {served : List Arrival} {outcome : Session × List Event} {begun : List (Job Unit)}
    (h : Concluded server disk t stop served outcome begun) :
    served.map Arrival.request = t.arrivals.map Arrival.request :=
  h.map_eq fun _ _ => rfl

theorem forall₂_served (ss : List Stage) :
    List.Forall₂ (fun a b : Arrival => b = a.movedTo b.workspace)
      (ss.flatMap fun s => s.taken.arrivals) (ss.flatMap Stage.served) := by
  induction ss with
  | nil => exact .nil
  | cons s ss ih =>
    refine List.rel_append ?_ ih
    rw [Stage.served, List.forall₂_map_right_iff, List.forall₂_same]
    exact fun a _ => rfl

theorem subperm_flatMap {α β : Type} {f g : α → List β} {xs : List α}
    (h : ∀ x ∈ xs, (f x).Subperm (g x)) : (xs.flatMap f).Subperm (xs.flatMap g) := by
  induction xs with
  | nil => exact List.nil_subperm
  | cons x xs ih =>
    obtain ⟨hx, hxs⟩ := List.forall_mem_cons.mp h
    exact hx.append (ih hxs)

section

variable {server : Server} (hserver : server.Replying) {disk : Disk} {w : Workspace}
variable {down closed : Bool} {buffer : Bytes} {input : List (Bytes × Bool)}
variable {groups : List (List Bytes)} {group : List Bytes}

include hserver

/-- A conversation in stages, however the bodies are grouped. -/
theorem concluded_of_arrives
    (h : Arrives server.host.reading buffer input (groups.map (·, false) ++ [(group, closed)])) :
    let t := absorb server w down (groups.flatten ++ group)
    Concluded server disk t (atEnd server closed t.status)
      ((stages server w down (groups.map (·, false) ++ [(group, closed)])).flatMap Stage.served)
      (Program.converse server disk ⟨w, down, buffer, .running⟩ input)
      (started server disk ⟨w, down, buffer, .running⟩ input) := by
  intro t
  obtain ⟨hreplies, hstarted, hworkspace, hdown, hstatus⟩ := staged_converse h disk w down
  obtain ⟨harrivals, s, hlast, hspace, hflag, hstop⟩ :=
    @stages_absorb server w down closed groups group
  have hmem := @status_of_mem_stages server w down (groups.map (·, false) ++ [(group, closed)])
  generalize stages server w down (groups.map (·, false) ++ [(group, closed)]) = ss at *
  rw [hlast] at hworkspace hdown hstatus
  refine ⟨hworkspace.trans hspace, hdown.trans hflag, ?_, ?_, ?_, fun hgood => ?_, ?_⟩
  · rw [hstarted, ← harrivals, List.map_flatMap]
    rfl
  · rw [← harrivals]
    exact forall₂_served ss
  · rw [hreplies, List.filterMap_flatMap]
    exact subperm_flatMap fun s _ => Stage.replies_subperm hserver
  · rw [hreplies, List.filterMap_flatMap]
    refine List.Perm.flatMap_left ss fun s' hs' => Stage.replies_perm hserver ?_
    rcases hmem hs' with hrun | hs
    · rw [hrun, settled_running]
      rintro ⟨fault, hfault⟩
      cases hfault
    · obtain rfl := Option.some.inj (hlast.symm.trans hs)
      rwa [hstatus] at hgood
  · generalize (Program.converse server disk ⟨w, down, buffer, .running⟩ input).1.status = status
      at hstatus
    rw [← hstop]
    obtain rfl : status = settled s.status (s.run server disk).2 := hstatus
    by_cases hnone : (s.run server disk).2 = none
    · rw [hnone]
      exact .inl (by cases s.status <;> rfl)
    · obtain ⟨fault, hfault⟩ := Option.ne_none_iff_exists'.mp hnone
      rw [Stage.fault_run_eq_none hserver] at hnone
      simp only [not_forall, not_not] at hnone
      obtain ⟨a, ha, hreply⟩ := hnone
      rw [hfault]
      cases s.status with
      | running => exact .inl rfl
      | failed other => exact .inl rfl
      | ended =>
        exact .inr ⟨rfl, ⟨fault, rfl⟩, a, List.mem_flatMap.mpr ⟨s, List.mem_of_getLast? hlast, ha⟩,
          hreply⟩

/-- All at once, the requests are served in the workspace of the end. -/
theorem concluded_buffered {frames bodies : List Bytes}
    (hframes : List.Forall₂ Frame.Carries frames bodies) (disk : Disk) (w : Workspace)
    (down closed : Bool) :
    let t := absorb server w down bodies
    let served := t.arrivals.map (Arrival.movedTo t.workspace)
    let outcome := Program.converse server disk ⟨w, down, [], .running⟩ [(frames.flatten, closed)]
    Concluded server disk t (atEnd server closed t.status) served outcome
        (started server disk ⟨w, down, [], .running⟩ [(frames.flatten, closed)]) ∧
      (atEnd server closed t.status = .ended → (∃ a ∈ served, a.reply? server disk = none) →
        outcome.1.status.Failed) := by
  intro t served outcome
  have harrives := @arrives_buffered server.host.reading frames bodies hframes closed
  have hconcluded := @concluded_of_arrives server hserver disk w down closed []
    [(frames.flatten, closed)] [] bodies harrives
  have hstages : stages server w down [(bodies, closed)] =
      [⟨t, atEnd server closed t.status⟩] := stages_singleton rfl closed
  have hserved : (stages server w down [(bodies, closed)]).flatMap Stage.served = served := by
    rw [hstages]
    exact List.flatMap_singleton _ _
  constructor
  · rw [← hserved]
    exact hconcluded
  · intro hended hnone
    have hstatus := (staged_converse harrives disk w down).status
    rw [hstages, hended] at hstatus
    obtain ⟨a, ha, hreply⟩ := hnone
    have hfault : ((⟨t, .ended⟩ : Stage).run server disk).2 ≠ none := by
      rw [Ne, Stage.fault_run_eq_none hserver]
      exact fun hall => hall a ha hreply
    obtain ⟨fault, hfault⟩ := Option.ne_none_iff_exists'.mp hfault
    change outcome.1.status = settled .ended ((⟨t, .ended⟩ : Stage).run server disk).2 at hstatus
    rw [hfault] at hstatus
    exact ⟨fault, hstatus⟩

/-- One body by itself is answered at once. -/
theorem replies_stage_body {body : Bytes} {t : Absorbed} (ht : absorb server w down [body] = t) :
    replies ((⟨t, atEnd server false t.status⟩ : Stage).run server disk).1 =
      t.arrivals.filterMap (Arrival.reply? server disk) := by
  subst ht
  generalize hr : handle server w body = r
  by_cases hrun : r.status = .running
  · have ht : absorb server w down [body] = ⟨r.events ++ [], r.workspace,
        downAfter down r.request, (r.request.toList.map fun q => ⟨q, r.workspace, down⟩) ++ [],
        .running⟩ := absorb_running hr hrun []
    rw [ht, List.append_nil, List.append_nil]
    cases r.request with
    | none => rfl
    | some q =>
      have hreply := ((⟨q, r.workspace, down⟩ : Arrival).reply?_cases hserver disk).1
      refine (replies_together_singleton ?_).trans (hreply.trans ?_)
      · generalize (firstFailure _).map Prod.fst = failure
        cases failure <;> rfl
      · rw [Option.toList_some, List.map_cons, List.map_nil, List.filterMap_cons]
        cases (⟨q, r.workspace, down⟩ : Arrival).reply? server disk <;> rfl
  · rw [absorb_stopped hr hrun]
    exact List.subperm_nil.mp (replies_together_subperm _ _)

/-- One at a time, each request is answered from the workspace that it meets. -/
theorem replies_apart {frames bodies : List Bytes}
    (hframes : List.Forall₂ Frame.Carries frames bodies) (disk : Disk) (w : Workspace)
    (down closed : Bool) :
    replies (Program.converse server disk ⟨w, down, [], .running⟩
        (frames.map (·, false) ++ [([], closed)])).2 =
      (absorb server w down bodies).arrivals.filterMap (Arrival.reply? server disk) := by
  have harrives := @arrives_apart server.host.reading frames bodies hframes closed
  rw [(staged_converse harrives disk w down).replies]
  clear harrives hframes
  induction bodies generalizing w down with
  | nil =>
    change (stages server w down [([], closed)]).flatMap _ = []
    rw [stages_singleton rfl, List.flatMap_singleton]
    exact List.subperm_nil.mp (replies_together_subperm _ _)
  | cons body bodies ih =>
    generalize ht : absorb server w down [body] = t
    have hbody := @replies_stage_body server hserver disk w down body t ht
    rw [List.map_cons, List.cons_append]
    by_cases hrun : t.status = .running
    · have hgoes : atEnd server false t.status = .running := by rw [hrun]; rfl
      rw [hgoes] at hbody
      have hall := absorb_append_running ht hrun bodies
      rw [List.singleton_append] at hall
      rw [stages_running ht hgoes, List.flatMap_cons, hbody, ih, hall, List.filterMap_append]
    · have hstop := atEnd_of_ne_running hrun server false
      have hall := absorb_append_stopped ht hrun bodies
      rw [List.singleton_append] at hall
      rw [stages_stopped ht (by rwa [hstop]), List.flatMap_singleton, hbody, hall]

end

/-! ### Conversations in any pieces -/

theorem informed_append (host : Host) (w : Workspace) (xs ys : List Bytes) :
    informed host w (xs ++ ys) = informed host (informed host w xs) ys := by
  rw [informed, List.filterMap_append, List.foldl_append]
  rfl

theorem heard_isPrefix (host : Host) (xs ys : List Bytes) :
    heard host xs <+: heard host (xs ++ ys) := by
  rw [heard, heard, List.takeWhile_append]
  split
  · exact (List.takeWhile_prefix _).trans (List.prefix_append _ _)
  · exact List.prefix_refl _

section

variable {server : Server} (hwritable : ∀ e, server.fails e = false)

include hwritable

theorem heard_append_of_running {w : Workspace} {down : Bool} {xs : List Bytes}
    (h : (absorb server w down xs).status = .running) (ys : List Bytes) :
    heard server.host xs = xs ∧
      heard server.host (xs ++ ys) = xs ++ heard server.host ys := by
  have hnone : ∀ b ∈ xs, (bodyEnding? server.host b).isNone = true := by
    intro b hb
    rw [(absorb_spec hwritable w down xs).1] at h
    cases hfind : xs.findSome? (bodyEnding? server.host) with
    | none => rw [List.findSome?_eq_none_iff.mp hfind b hb]; rfl
    | some status =>
      rw [hfind] at h
      obtain ⟨body, -, hbody⟩ := List.exists_of_findSome?_eq_some hfind
      obtain rfl : status = .running := h
      exact absurd hbody (bodyEnding?_ne_running _ _)
  exact ⟨List.takeWhile_eq_self_iff.mpr hnone, List.takeWhile_append_of_pos hnone⟩

/-- Requests are served in workspaces on the way. -/
theorem reached_of_mem_stages {w : Workspace} {down : Bool} {groups : List (List Bytes × Bool)}
    {s : Stage} (h : s ∈ stages server w down groups) :
    ∃ before, before <+: heard server.host (groups.flatMap Prod.fst) ∧
      s.taken.workspace = informed server.host w before := by
  induction groups generalizing w down with
  | nil => cases h
  | cons piece rest ih =>
    obtain ⟨group, closed⟩ := piece
    have hworkspace := (absorb_spec hwritable w down group).2.1
    have hall := @heard_append_of_running server hwritable w down group
    generalize ht : absorb server w down group = t at hworkspace hall
    rw [List.flatMap_cons]
    by_cases hrun : atEnd server closed t.status = .running
    · obtain ⟨hgroup, hmore⟩ := hall (status_of_atEnd hrun) (rest.flatMap Prod.fst)
      rw [hgroup] at hworkspace
      rw [hmore]
      rw [stages_running ht hrun] at h
      rcases List.mem_cons.mp h with rfl | h
      · exact ⟨group, List.prefix_append _ _, hworkspace⟩
      · obtain ⟨before, hbefore, hreached⟩ := ih h
        refine ⟨group ++ before, (List.prefix_append_right_inj group).mpr hbefore, ?_⟩
        rw [hreached, hworkspace, informed_append]
    · rw [stages_stopped ht hrun] at h
      obtain rfl := List.mem_singleton.mp h
      exact ⟨heard server.host group, heard_isPrefix _ _ _, hworkspace⟩

variable (hserver : server.Replying) (disk : Disk) {frames bodies pieces : List Bytes}
variable {last : Bytes}

include hserver

omit hserver in
/-- The first body that ends the session gives its status, or else the end of the input. -/
theorem atEnd_absorb (w : Workspace) (down closed : Bool) (bodies : List Bytes) :
    atEnd server closed (absorb server w down bodies).status =
      (bodies.findSome? (bodyEnding? server.host)).getD (if closed then .ended else .running) := by
  rw [(absorb_spec hwritable w down bodies).1]
  cases hending : bodies.findSome? (bodyEnding? server.host) with
  | none =>
    have hend : (endOfInput server).2 = .ended := by
      rw [endOfInput, if_neg (by simp [hwritable])]
    change (if closed then (endOfInput server).2 else .running) = _
    rw [hend]
    rfl
  | some status =>
    obtain ⟨body, -, hbody⟩ := List.exists_of_findSome?_eq_some hending
    refine atEnd_of_ne_running (fun hrun => ?_) server closed
    rw [Option.getD_some] at hrun
    exact bodyEnding?_ne_running server.host body (hrun ▸ hbody)

/-- A whole conversation, however its input is cut into pieces. -/
theorem exists_concluded (hframes : List.Forall₂ Frame.Carries frames bodies)
    (hpieces : pieces.flatten ++ last = frames.flatten) (closed : Bool) :
    let t := absorb server .empty false bodies
    let input := pieces.map (·, false) ++ [(last, closed)]
    let outcome := Program.converse server disk .initial input
    ∃ served : List Arrival,
      Concluded server disk t (atEnd server closed t.status) served outcome
          (started server disk .initial input) ∧
        (∀ a ∈ served, ∃ before, before <+: heard server.host bodies ∧
          a.workspace = informed server.host .empty before) ∧
        (pieces = [] → atEnd server closed t.status = .ended →
          (∃ a ∈ served, a.reply? server disk = none) → outcome.1.status.Failed) := by
  intro t input outcome
  obtain ⟨groups, group, rfl, hone, harrives⟩ :=
    @exists_arrives server.host.reading frames bodies [] last pieces hframes hpieces closed
  have hconcluded := @concluded_of_arrives server hserver disk .empty false closed [] input groups
    group harrives
  refine ⟨_, hconcluded, fun a ha => ?_, fun hnil => ?_⟩
  · obtain ⟨s, hs, ha⟩ := List.mem_flatMap.mp ha
    obtain ⟨b, -, rfl⟩ := List.mem_map.mp ha
    have hreached := reached_of_mem_stages hwritable hs
    rwa [List.flatMap_append, List.flatMap_map, List.flatMap_singleton, List.flatMap_id']
      at hreached
  · subst hnil
    obtain rfl := hone rfl
    obtain rfl : last = frames.flatten := hpieces
    have hbuffered := (@concluded_buffered server hserver frames group hframes disk .empty false
      closed).2
    rw [List.map_nil, List.nil_append, stages_singleton rfl, List.flatMap_singleton]
    exact hbuffered

end

end Session

end RenameServer
