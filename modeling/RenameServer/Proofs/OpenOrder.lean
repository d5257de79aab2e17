import Mathlib.Data.List.Induction
import Mathlib.Data.List.Nodup
import Mathlib.Data.Nat.Find
import RenameServer.Proofs.Jobs

/-!
The order of the open documents. All that an operation does to the list of URIs
is to add a new one at the end or to take one out. After any operations the
documents are therefore listed in the order in which each of them was first
opened since it was last closed, and no URI is listed twice.
-/
namespace RenameServer

theorem Json.asKey_of_key? {uri : Json} {k : Json.Key} (h : uri.key? = some k) :
    uri.asKey = .ok uri := by
  cases uri with
  | arr items => cases h
  | obj fields => cases h
  | _ => rfl

theorem Json.key?_of_asKey {uri key : Json} (h : uri.asKey = .ok key) :
    key = uri ∧ ∃ k, uri.key? = some k := by
  cases uri with
  | arr items => cases h
  | obj fields => cases h
  | float value => cases value <;> exact ⟨(Except.ok.inj h).symm, _, rfl⟩
  | _ => exact ⟨(Except.ok.inj h).symm, _, rfl⟩

namespace Workspace

/-- The URIs of the open documents as keys. -/
def keys (w : Workspace) : List (Option Json.Key) := w.documents.map fun d => d.uri.key?

/-- No two open documents have the same URI. -/
def Distinct (w : Workspace) : Prop := w.keys.Nodup

theorem keys_insert (d : Document) (documents : List Document) :
    (insert d documents).map (fun d => d.uri.key?) =
      if d.uri.key? ∈ documents.map (fun d => d.uri.key?) then documents.map fun d => d.uri.key?
      else documents.map (fun d => d.uri.key?) ++ [d.uri.key?] := by
  induction documents with
  | nil => rfl
  | cons other rest ih =>
    rw [insert]
    by_cases hsame : other.uri.key? = d.uri.key?
    · rw [if_pos (Json.sameKey_iff.mpr hsame), List.map_cons, List.map_cons, hsame,
        if_pos (List.mem_cons_self ..)]
    · rw [if_neg (mt Json.sameKey_iff.mp hsame), List.map_cons, List.map_cons, ih]
      simp only [List.mem_cons, Ne.symm hsame, false_or, List.cons_append]
      split <;> rfl

theorem keys_put (w : Workspace) (d : Document) :
    (w.put d).keys = if d.uri.key? ∈ w.keys then w.keys else w.keys ++ [d.uri.key?] :=
  keys_insert d w.documents

theorem mem_keys_of_get {w : Workspace} {uri : Json} {d : Document} (h : w.get uri = .ok d) :
    uri.key? ∈ w.keys := by
  obtain ⟨key, hkey, hget⟩ := exists_of_bind_ok h
  obtain ⟨rfl, -⟩ := Json.key?_of_asKey hkey
  split at hget
  · next found hfind =>
    have hsame := List.find?_some hfind
    exact List.mem_map.mpr ⟨found, List.mem_of_find?_eq_some hfind, Json.sameKey_iff.mp hsame⟩
  · cases hget

/-- A new text and version leave the list of URIs alone. -/
theorem keys_update {w w' : Workspace} {uri text version : Json}
    (h : w.update uri text version = .ok w') : w'.keys = w.keys := by
  obtain ⟨d, hd, hput⟩ := exists_of_bind_ok h
  obtain rfl := Except.ok.inj hput
  rw [keys_put, if_pos (mem_keys_of_get hd)]

theorem keys_eraseP (documents : List Document) (uri : Json) :
    (documents.eraseP fun d => d.uri.sameKey uri).map (fun d => d.uri.key?) =
      (documents.map fun d => d.uri.key?).erase uri.key? := by
  induction documents with
  | nil => rfl
  | cons d rest ih =>
    rw [List.eraseP_cons, List.map_cons]
    by_cases hsame : d.uri.key? = uri.key?
    · rw [Json.sameKey_iff.mpr hsame, hsame, List.erase_cons_head]
      rfl
    · rw [Bool.eq_false_iff.mpr (mt Json.sameKey_iff.mp hsame),
        List.erase_cons_tail (by simpa using hsame), ← ih]
      rfl

namespace Operation

/-- The URI that an operation opens. -/
def opens? : Operation → Option Json.Key
  | .openDocument d => d.uri.key?
  | _ => none

/-- The URI that an operation closes. -/
def closes? : Operation → Option Json.Key
  | .closeDocument uri => uri.key?
  | _ => none

theorem closes?_of_opens? {op : Operation} {k : Json.Key} (h : op.opens? = some k) :
    op.closes? = none := by
  cases op with
  | openDocument d => rfl
  | _ => cases h

end Operation

/-- An opened URI is listed last unless it is listed already. -/
theorem keys_run_open {op : Operation} {k : Json.Key} (h : op.opens? = some k) (w : Workspace) :
    (op.run w).keys = if some k ∈ w.keys then w.keys else w.keys ++ [some k] := by
  cases op with
  | openDocument d =>
    have hkey : d.uri.key? = some k := h
    have hok : Operation.apply w (.openDocument d) = .ok (w.put d) := by
      rw [Operation.apply, openDocument, Json.asKey_of_key? hkey]
      rfl
    rw [Operation.run, hok, ← hkey]
    exact keys_put w d
  | _ => cases h

theorem keys_run_close {op : Operation} {k : Json.Key} (h : op.closes? = some k) (w : Workspace) :
    (op.run w).keys = w.keys.erase (some k) := by
  cases op with
  | closeDocument uri =>
    have hkey : uri.key? = some k := h
    have hok : Operation.apply w (.closeDocument uri) =
        .ok ⟨w.documents.eraseP fun d => d.uri.sameKey uri⟩ := by
      rw [Operation.apply, closeDocument, Json.asKey_of_key? hkey]
      rfl
    rw [Operation.run, hok, ← hkey]
    exact keys_eraseP w.documents uri
  | _ => cases h

theorem keys_run_other {op : Operation} (hopens : op.opens? = none) (hcloses : op.closes? = none)
    (w : Workspace) : (op.run w).keys = w.keys := by
  rw [Operation.run]
  split
  · next w' happly =>
    cases op with
    | openDocument d =>
      obtain ⟨key, hkey, -⟩ := exists_of_bind_ok happly
      obtain ⟨-, k, hk⟩ := Json.key?_of_asKey hkey
      exact absurd (hk.symm.trans hopens) (by simp)
    | update uri text version => exact keys_update happly
    | change uri changes version =>
      obtain ⟨d, -, htext⟩ := exists_of_bind_ok happly
      obtain ⟨items, -, hitems⟩ := exists_of_bind_ok htext
      obtain ⟨text, -, hupdate⟩ := exists_of_bind_ok hitems
      exact keys_update hupdate
    | closeDocument uri =>
      obtain ⟨key, hkey, -⟩ := exists_of_bind_ok happly
      obtain ⟨-, k, hk⟩ := Json.key?_of_asKey hkey
      exact absurd (hk.symm.trans hcloses) (by simp)
  · rfl

theorem Distinct.run {w : Workspace} (h : w.Distinct) (op : Operation) : (op.run w).Distinct := by
  rw [Distinct] at h ⊢
  cases hopens : op.opens? with
  | some k =>
    rw [keys_run_open hopens]
    split
    · exact h
    · next hnew => exact List.nodup_append.mpr ⟨h, List.nodup_singleton _, by
        intro key hkey other hother heq
        rw [List.mem_singleton.mp hother] at heq
        exact hnew (heq ▸ hkey)⟩
  | none =>
    cases hcloses : op.closes? with
    | some k =>
      rw [keys_run_close hcloses]
      exact h.erase _
    | none => rwa [keys_run_other hopens hcloses]

theorem distinct_worlds {schedule : Job.Schedule} {w : Workspace} (h : w.Distinct) (n : Nat) :
    (Job.worlds schedule w n).Distinct := by
  induction n with
  | zero => exact h
  | succ n ih =>
    exact List.foldlRecOn (schedule (n + 1)) Operation.run ih fun _ hw op _ => hw.run op

/-- The operation at an index is the earliest one that opened a URI since the URI
was last closed. -/
structure EarliestOpen (ops : List Operation) (k : Json.Key) (i : Nat) : Prop where
  opens : ∃ op, ops[i]? = some op ∧ op.opens? = some k
  not_closed : ∀ j op, i < j → ops[j]? = some op → op.closes? ≠ some k
  earliest : ∀ j op, j < i → ops[j]? = some op → op.opens? = some k →
    ∃ m close, j < m ∧ m < i ∧ ops[m]? = some close ∧ close.closes? = some k

variable {ops : List Operation} {op : Operation} {k : Json.Key} {i j : Nat}

theorem EarliestOpen.lt_length (h : EarliestOpen ops k i) : i < ops.length := by
  obtain ⟨op, hop, -⟩ := h.opens
  exact (List.getElem?_eq_some_iff.mp hop).1

theorem EarliestOpen.le (hi : EarliestOpen ops k i) (hj : EarliestOpen ops k j) : j ≤ i := by
  by_contra hlt
  obtain ⟨op, hop, hopens⟩ := hi.opens
  obtain ⟨m, close, him, -, hclose, hcloses⟩ := hj.earliest i op (by omega) hop hopens
  exact hi.not_closed m close him hclose hcloses

theorem EarliestOpen.unique (hi : EarliestOpen ops k i) (hj : EarliestOpen ops k j) : i = j :=
  Nat.le_antisymm (hj.le hi) (hi.le hj)

/-- A URI that was opened and not closed afterwards has an earliest opening. -/
theorem exists_earliestOpen (hop : ops[j]? = some op) (hopens : op.opens? = some k)
    (hclosed : ∀ m close, j < m → ops[m]? = some close → close.closes? ≠ some k) :
    ∃ i, EarliestOpen ops k i := by
  classical
  -- The least index with an opening that no closing follows.
  let Lasting (n : Nat) : Prop := (∃ op, ops[n]? = some op ∧ op.opens? = some k) ∧
    ∀ m close, n < m → ops[m]? = some close → close.closes? ≠ some k
  have hexists : ∃ n, Lasting n := ⟨j, ⟨op, hop, hopens⟩, hclosed⟩
  obtain ⟨hfirst, hlasting⟩ := Nat.find_spec hexists
  refine ⟨Nat.find hexists, hfirst, hlasting, ?_⟩
  intro n op' hn hop' hopens'
  have hnot := Nat.find_min hexists hn
  by_contra hnone
  apply hnot
  refine ⟨⟨op', hop', hopens'⟩, fun m close hm hclose hcloses => hnone ?_⟩
  refine ⟨m, close, hm, ?_, hclose, hcloses⟩
  obtain ⟨first, hop, hopens⟩ := hfirst
  rcases Nat.lt_trichotomy m (Nat.find hexists) with hlt | heq | hgt
  · exact hlt
  · rw [heq] at hclose
    obtain rfl := Option.some.inj (hop.symm.trans hclose)
    rw [Operation.closes?_of_opens? hopens] at hcloses
    cases hcloses
  · exact absurd hcloses (hlasting m close hgt hclose)

/-- What one operation more does to the earliest openings. -/
theorem earliestOpen_concat :
    EarliestOpen (ops ++ [op]) k i ↔ op.closes? ≠ some k ∧
      (EarliestOpen ops k i ∨
        op.opens? = some k ∧ i = ops.length ∧ ∀ j, ¬EarliestOpen ops k j) := by
  have hold : ∀ {n : Nat}, n < ops.length → (ops ++ [op])[n]? = ops[n]? := fun hn =>
    List.getElem?_append_left hn
  have hlast : (ops ++ [op])[ops.length]? = some op := List.getElem?_concat_length
  have hbound : ∀ {n : Nat} {o : Operation}, (ops ++ [op])[n]? = some o → n ≤ ops.length := by
    intro n o hn
    have := (List.getElem?_eq_some_iff.mp hn).1
    rw [List.length_append, List.length_singleton] at this
    omega
  have hlt : ∀ {n : Nat} {o : Operation}, ops[n]? = some o → n < ops.length := fun hn =>
    (List.getElem?_eq_some_iff.mp hn).1
  constructor
  · rintro ⟨⟨first, hfirst, hopens⟩, hclosed, hearliest⟩
    rcases Nat.lt_or_eq_of_le (hbound hfirst) with hi | rfl
    · rw [hold hi] at hfirst
      refine ⟨hclosed _ op hi hlast, .inl ⟨⟨first, hfirst, hopens⟩, ?_, ?_⟩⟩
      · intro j o hj ho
        exact hclosed j o hj (by rwa [hold (hlt ho)])
      · intro j o hj ho hopens'
        obtain ⟨m, close, hjm, hmi, hclose, hcloses⟩ :=
          hearliest j o hj (by rwa [hold (hlt ho)]) hopens'
        exact ⟨m, close, hjm, hmi, by rwa [hold (Nat.lt_trans hmi hi)] at hclose, hcloses⟩
    · obtain rfl := Option.some.inj (hlast.symm.trans hfirst)
      refine ⟨by rw [Operation.closes?_of_opens? hopens]; simp, .inr ⟨hopens, rfl, ?_⟩⟩
      intro j hj
      obtain ⟨o, ho, hopens'⟩ := hj.opens
      obtain ⟨m, close, hjm, hm, hclose, hcloses⟩ :=
        hearliest j o hj.lt_length (by rwa [hold hj.lt_length]) hopens'
      exact hj.not_closed m close hjm (by rwa [hold hm] at hclose) hcloses
  · rintro ⟨hkept, hi | ⟨hopens, rfl, hnone⟩⟩
    · refine ⟨?_, ?_, ?_⟩
      · obtain ⟨o, ho, hopens⟩ := hi.opens
        exact ⟨o, by rwa [hold hi.lt_length], hopens⟩
      · intro j o hj ho
        rcases Nat.lt_or_eq_of_le (hbound ho) with hj' | rfl
        · exact hi.not_closed j o hj (by rwa [hold hj'] at ho)
        · obtain rfl := Option.some.inj (hlast.symm.trans ho)
          exact hkept
      · intro j o hj ho hopens
        have hj' : j < ops.length := Nat.lt_trans hj hi.lt_length
        obtain ⟨m, close, hjm, hmi, hclose, hcloses⟩ :=
          hi.earliest j o hj (by rwa [hold hj'] at ho) hopens
        exact ⟨m, close, hjm, hmi, by rwa [hold (Nat.lt_trans hmi hi.lt_length)], hcloses⟩
    · refine ⟨⟨op, hlast, hopens⟩, ?_, ?_⟩
      · intro j o hj ho
        have := hbound ho
        omega
      · intro j o hj ho hopens'
        rw [hold hj] at ho
        by_contra hopen
        obtain ⟨i, hi⟩ := exists_earliestOpen ho hopens' fun m close hjm hclose hcloses =>
          hopen ⟨m, close, hjm, hlt hclose, by rwa [hold (hlt hclose)], hcloses⟩
        exact hnone i hi

/-- The open documents with the operations that opened them, in this order. -/
structure Listed (ops : List Operation) (w : Workspace) (opened : List (Json.Key × Nat)) :
    Prop where
  keys : w.keys = opened.map fun entry => some entry.1
  sorted : opened.Pairwise fun a b => a.2 < b.2
  mem_iff : ∀ k i, (k, i) ∈ opened ↔ EarliestOpen ops k i

theorem listed_nil : Listed [] .empty [] where
  keys := rfl
  sorted := .nil
  mem_iff := by
    intro k i
    refine ⟨fun h => absurd h List.not_mem_nil, fun h => ?_⟩
    obtain ⟨op, hop, -⟩ := h.opens
    cases hop

variable {w : Workspace} {opened : List (Json.Key × Nat)}

theorem Listed.mem_keys (h : Listed ops w opened) :
    some k ∈ w.keys ↔ ∃ i, EarliestOpen ops k i := by
  simp only [h.keys, List.mem_map, Option.some.injEq, Prod.exists, ← h.mem_iff]
  constructor
  · rintro ⟨_, i, hmem, rfl⟩
    exact ⟨i, hmem⟩
  · rintro ⟨i, hmem⟩
    exact ⟨k, i, hmem, rfl⟩

theorem Listed.nodup (h : Listed ops w opened) : (opened.map Prod.fst).Nodup := by
  rw [List.Nodup, List.pairwise_map]
  refine h.sorted.imp_of_mem ?_
  rintro ⟨k, i⟩ ⟨k', j⟩ hi hj hlt heq
  obtain rfl : k = k' := heq
  have := ((h.mem_iff k i).mp hi).unique ((h.mem_iff k j).mp hj)
  omega

theorem Listed.distinct (h : Listed ops w opened) : w.Distinct := by
  have hmap := h.nodup.map fun _ _ heq => Option.some.inj heq
  rw [List.map_map] at hmap
  rw [Distinct, h.keys]
  exact hmap

theorem Listed.of_open (h : Listed ops w opened) (hopens : op.opens? = some k) :
    ∃ opened', Listed (ops ++ [op]) (op.run w) opened' := by
  have hkept : ∀ k', op.closes? ≠ some k' := by
    intro k'
    rw [Operation.closes?_of_opens? hopens]
    simp
  by_cases hmem : some k ∈ w.keys
  · obtain ⟨i₀, hi₀⟩ := h.mem_keys.mp hmem
    refine ⟨opened, by rw [keys_run_open hopens, if_pos hmem, h.keys], h.sorted, ?_⟩
    intro k' i
    rw [h.mem_iff, earliestOpen_concat]
    constructor
    · exact fun hi => ⟨hkept k', .inl hi⟩
    · rintro ⟨-, hi | ⟨hopens', -, hnone⟩⟩
      · exact hi
      · obtain rfl := Option.some.inj (hopens.symm.trans hopens')
        exact absurd hi₀ (hnone i₀)
  · refine ⟨opened ++ [(k, ops.length)], ?_, ?_, ?_⟩
    · rw [keys_run_open hopens, if_neg hmem, h.keys, List.map_append, List.map_singleton]
    · refine List.pairwise_append.mpr ⟨h.sorted, List.pairwise_singleton _ _, ?_⟩
      rintro ⟨k', i⟩ hi last hlast
      rw [List.mem_singleton.mp hlast]
      exact ((h.mem_iff k' i).mp hi).lt_length
    · intro k' i
      rw [List.mem_append, h.mem_iff, List.mem_singleton, Prod.mk.injEq, earliestOpen_concat]
      constructor
      · rintro (hi | ⟨rfl, rfl⟩)
        · exact ⟨hkept k', .inl hi⟩
        · exact ⟨hkept _, .inr ⟨hopens, rfl, fun j hj => hmem (h.mem_keys.mpr ⟨j, hj⟩)⟩⟩
      · rintro ⟨-, hi | ⟨hopens', rfl, -⟩⟩
        · exact .inl hi
        · exact .inr ⟨(Option.some.inj (hopens.symm.trans hopens')).symm, rfl⟩

theorem Listed.of_close (h : Listed ops w opened) (hcloses : op.closes? = some k) :
    ∃ opened', Listed (ops ++ [op]) (op.run w) opened' := by
  have hopens : op.opens? = none := by
    cases hopens : op.opens? with
    | none => rfl
    | some k' =>
      rw [Operation.closes?_of_opens? hopens] at hcloses
      cases hcloses
  refine ⟨opened.filter fun entry => entry.1 ≠ k, ?_, h.sorted.filter _, ?_⟩
  · rw [keys_run_close hcloses, h.distinct.erase_eq_filter, h.keys, List.filter_map]
    congr 1
    apply List.filter_congr
    intro entry _
    by_cases hsame : entry.1 = k
    · simp [hsame]
    · simp [hsame]
  · intro k' i
    rw [List.mem_filter, h.mem_iff, earliestOpen_concat, hcloses, hopens]
    simp only [decide_eq_true_eq, Ne, Option.some.injEq, reduceCtorEq, false_and, or_false,
      eq_comm (a := k), and_comm]

theorem Listed.of_other (h : Listed ops w opened) (hopens : op.opens? = none)
    (hcloses : op.closes? = none) : Listed (ops ++ [op]) (op.run w) opened where
  keys := by rw [keys_run_other hopens hcloses, h.keys]
  sorted := h.sorted
  mem_iff := by
    intro k i
    rw [h.mem_iff, earliestOpen_concat, hopens, hcloses]
    simp

/-- After any operations the documents are listed in the order of their earliest openings. -/
theorem exists_listed (ops : List Operation) :
    ∃ opened, Listed ops (ops.foldl Operation.run .empty) opened := by
  induction ops using List.reverseRecOn with
  | nil => exact ⟨[], listed_nil⟩
  | append_singleton ops op ih =>
    obtain ⟨opened, h⟩ := ih
    rw [List.foldl_append, List.foldl_cons, List.foldl_nil]
    cases hopens : op.opens? with
    | some k => exact h.of_open hopens
    | none =>
      cases hcloses : op.closes? with
      | some k => exact h.of_close hcloses
      | none => exact ⟨opened, h.of_other hopens hcloses⟩

end Workspace

end RenameServer
