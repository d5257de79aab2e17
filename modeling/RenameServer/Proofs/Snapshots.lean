import RenameServer.Proofs.Renaming

/-!
What the versions in a workspace edit stand for. An entry is made at three
moments: its tokens are found in the text of the first, their ranges are those
in the text of the second, and its version is that of the third. If the document
is the same at all three, the entry speaks of one snapshot. If it changes in
between, the entry may speak of none.
-/
namespace RenameServer.RenameService

open Job

/-- The tokens under the cursor of a request. -/
def IsTarget (disk : Disk) (w : Workspace) (params : Json) (t : Token) : Prop :=
  ∃ source offset, ((target params).run disk alone 0 w).result = .ok (source, offset) ∧
    Token.at? source.tokens offset t.kind = some t

/-- A token that is spelled like one under the cursor. -/
def Matches (isTarget : Token → Prop) (t : Token) : Prop :=
  ∃ target, isTarget target ∧ Strategy.SameName target t

/-- The range of such a token in a text. -/
def Covers (isTarget : Token → Prop) (text : String) (range : PositionRange) : Prop :=
  ∃ t ∈ Token.scan (Utf8.encode text),
    range = (LineIndex.ofText text).range t.range ∧ Matches isTarget t

/-- Some snapshot of the document up to the moment `n` has the version of the
entry and, in its text, the tokens that the entry would change. -/
def Honest (world : Nat → Workspace) (n : Nat) (isTarget : Token → Prop) (u : String)
    (c : DocumentChange) : Prop :=
  ∃ m d text, m ≤ n ∧ (world m).find? (.str u) = some d ∧ d.text = .str text ∧
    c.version = d.version ∧ ∀ e ∈ c.edits, Covers isTarget text e.range

/-- The three moments of an entry: at `i` the tokens are found, at `j` the text
is the one in which their ranges are taken, and at `k` the version is looked up. -/
structure Stamped (disk : Disk) (world : Nat → Workspace) (isTarget : Token → Prop) (u : String)
    (c : DocumentChange) (i j k : Nat) (tokens : List Token) (text : String) : Prop where
  ordered : i ≤ j ∧ j ≤ k
  found : ∃ d source, (world i).find? (.str u) = some d ∧ d.text = .str source ∧
    ∀ t ∈ tokens, t ∈ Token.scan (Utf8.encode source) ∧ Matches isTarget t
  converted : ∃ d, located disk (world j) (.str u) = .ok d ∧ d.text = .str text ∧
    c.edits.map PositionEdit.range = tokens.map fun t => (LineIndex.ofText text).range t.range
  stamped : versionOf (world k) (.str u) = .ok c.version

/-- Some snapshot of the document up to the moment `n` has the version of the
moment `k`, and tokens to change at the ranges of `tokens` in `text`. -/
def Agrees (world : Nat → Workspace) (n : Nat) (isTarget : Token → Prop) (u : String) (k : Nat)
    (tokens : List Token) (text : String) : Prop :=
  ∃ m d text', m ≤ n ∧ (world m).find? (.str u) = some d ∧ d.text = .str text' ∧
    versionOf (world k) (.str u) = .ok d.version ∧
    ∀ t ∈ tokens, Covers isTarget text' ((LineIndex.ofText text).range t.range)

variable {disk : Disk} {world : Nat → Workspace} {isTarget : Token → Prop} {u : String}
  {c : DocumentChange} {i j k n : Nat} {tokens : List Token} {text : String}

theorem versionOf_of_find? {w : Workspace} {d : Document} (h : w.find? (.str u) = some d) :
    versionOf w (.str u) = .ok d.version := by
  have hget : w.get (.str u) = .ok d := by rw [Workspace.get_str, h]
  rw [versionOf, Workspace.has_str, h, hget]
  rfl

/-- An entry is honest exactly if what is known of its three moments agrees with
one snapshot. -/
theorem Stamped.honest_iff (h : Stamped disk world isTarget u c i j k tokens text) :
    Honest world n isTarget u c ↔ Agrees world n isTarget u k tokens text := by
  obtain ⟨-, -, -, hedits⟩ := h.converted
  have hranges : ∀ text', (∀ e ∈ c.edits, Covers isTarget text' e.range) ↔
      ∀ t ∈ tokens, Covers isTarget text' ((LineIndex.ofText text).range t.range) := by
    intro text'
    have hsame : (∀ r ∈ c.edits.map PositionEdit.range, Covers isTarget text' r) ↔
        ∀ r ∈ tokens.map fun t => (LineIndex.ofText text).range t.range,
          Covers isTarget text' r := by rw [hedits]
    rwa [List.forall_mem_map, List.forall_mem_map] at hsame
  constructor
  · rintro ⟨m, d, text', hm, hd, htext, hversion, hcovers⟩
    exact ⟨m, d, text', hm, hd, htext, hversion ▸ h.stamped, (hranges text').mp hcovers⟩
  · rintro ⟨m, d, text', hm, hd, htext, hversion, hcovers⟩
    exact ⟨m, d, text', hm, hd, htext, Except.ok.inj (h.stamped.symm.trans hversion),
      (hranges text').mpr hcovers⟩

/-- They agree with the snapshot of the first moment if the document is the same
at the others. -/
theorem Stamped.agrees (h : Stamped disk world isTarget u c i j k tokens text) (hn : k ≤ n)
    (hij : (world i).find? (.str u) = (world j).find? (.str u))
    (hik : (world i).find? (.str u) = (world k).find? (.str u)) :
    Agrees world n isTarget u k tokens text := by
  obtain ⟨d, source, hd, hsource, hfound⟩ := h.found
  obtain ⟨d', hd', htext, -⟩ := h.converted
  rw [located_of_find? (hij ▸ hd)] at hd'
  obtain rfl := Except.ok.inj hd'
  obtain rfl := Json.str.inj (hsource.symm.trans htext)
  have hi : i ≤ n := by
    have := h.ordered
    omega
  exact ⟨i, d, source, hi, hd, hsource, versionOf_of_find? (hik ▸ hd),
    fun t ht => ⟨t, (hfound t ht).1, rfl, (hfound t ht).2⟩⟩

/-- The tokens that get a new spelling, by their ranges. -/
theorem map_range_edits (spell : Token → Option String) (tokens : List Token) :
    (Respelling.edits spell tokens).map TextEdit.range =
      (tokens.filter fun t => (spell t).isSome).map Token.range := by
  induction tokens with
  | nil => rfl
  | cons t rest ih =>
    cases hspell : spell t with
    | none =>
      rw [Respelling.edits_cons_none hspell, ih, List.filter_cons_of_neg (by simp [hspell])]
    | some s =>
      rw [Respelling.edits_cons_some hspell, List.filter_cons_of_pos (by simp [hspell]),
        List.map_cons, List.map_cons, ih]

/-- Every entry of a rename has its three moments, whatever happens at the
pauses. It is honest exactly if these agree with one snapshot, as they do if the
document is the same at all of them. -/
theorem rename_stamped {service : RenameService} (hservice : service.renamer = Chain.standard)
    {w : Workspace} (hw : w.Keyed) {params uri : Json} (huri : requestUri params = .ok uri)
    (hopen : w.has uri = .ok true) {schedule : Schedule} {edit : WorkspaceEdit}
    (h : ((service.rename params).run disk schedule 0 w).result = .ok edit)
    (hc : c ∈ edit.changes) (hu : c.uri = .str u) :
    ∃ n i j k tokens text,
      (service.rename params).Yields disk (worlds schedule w) 0 n edit ∧ k ≤ n ∧
      Stamped disk (worlds schedule w) (IsTarget disk w params) u c i j k tokens text ∧
      (Honest (worlds schedule w) n (IsTarget disk w params) u c ↔
        Agrees (worlds schedule w) n (IsTarget disk w params) u k tokens text) ∧
      ((worlds schedule w i).find? (.str u) = (worlds schedule w j).find? (.str u) →
        (worlds schedule w i).find? (.str u) = (worlds schedule w k).find? (.str u) →
        Honest (worlds schedule w) n (IsTarget disk w params) u c) := by
  obtain ⟨n, hyields⟩ := yields_of_run (p := 0) h
  have hworld : ∀ n, (worlds schedule w n).Keyed := keyed_worlds hw
  rcases renamed_of_rename hyields with rfl | hrenamed
  · cases hc
  obtain ⟨r⟩ := hrenamed
  obtain ⟨hsome, j, k, d', text', hj, hjk, hk, hd', htext', hedits, hversion⟩ :=
    r.entry hservice hworld hc hu
  obtain ⟨i, d, text, spell, hi, hd, htext, hwrites, hes⟩ :=
    r.found hservice hworld huri hopen hsome
  have htarget := r.targeted.result_run_of_le (Nat.le_refl 0)
  have hstamped : Stamped disk (worlds schedule w) (IsTarget disk w params) u c i j k
      ((Token.scan (Utf8.encode text)).filter fun t => (spell t).isSome) text' := by
    refine ⟨⟨Nat.le_trans hi hj, hjk⟩, ⟨d, text, hd, htext, fun t ht => ?_⟩,
      ⟨d', hd', htext', ?_⟩, hversion⟩
    · obtain ⟨hscan, hspell⟩ := List.mem_filter.mp ht
      obtain ⟨name, hname⟩ := Option.isSome_iff_exists.mp hspell
      obtain ⟨target, hat, hsame⟩ := hwrites.found t name hname
      exact ⟨hscan, target, ⟨r.source, r.offset, htarget, hat⟩, hsame⟩
    · have hranges := congrArg (List.map (LineIndex.ofText text').range)
        (map_range_edits spell (Token.scan (Utf8.encode text)))
      rw [List.map_map, List.map_map, ← hes] at hranges
      rw [hedits, List.map_map]
      exact hranges
  exact ⟨n, i, j, k, _, text', hyields, hk, hstamped, hstamped.honest_iff,
    fun hij hik => hstamped.honest_iff.mpr (hstamped.agrees hk hij hik)⟩

/-- A rename that nothing disturbs, of a function that two documents mention. -/
theorem rename_stamped_quiet :
    let service : RenameService := ⟨Chain.standard, 1, fun _ => .done ()⟩
    let w : Workspace := ⟨[⟨.str "a", .str "function f() {}", .null, .int 1⟩,
      ⟨.str "b", .str "f();", .null, .int 4⟩]⟩
    let params : Json := .obj [("textDocument", .obj [("uri", .str "a")]),
      ("position", .obj [("line", .int 0), ("character", .int 9)]), ("newName", .str "g")]
    let world := worlds alone w
    let isTarget := IsTarget (fun _ => .absent) w params
    ∃ edit c, ((service.rename params).run (fun _ => .absent) alone 0 w).result = .ok edit ∧
      c ∈ edit.changes ∧ c.uri = .str "b" ∧
      ∃ n i j k tokens text,
        (service.rename params).Yields (fun _ => .absent) world 0 n edit ∧ k ≤ n ∧
        Stamped (fun _ => .absent) world isTarget "b" c i j k tokens text ∧
        (Honest world n isTarget "b" c ↔ Agrees world n isTarget "b" k tokens text) ∧
        ((world i).find? (.str "b") = (world j).find? (.str "b") →
          (world i).find? (.str "b") = (world k).find? (.str "b") →
          Honest world n isTarget "b" c) := by
  intro service w params world isTarget
  have hentry : hasEntry ((service.rename params).run (fun _ => .absent) alone 0 w).result
      (fun c => c.uri.same (.str "b")) = true := by decide +kernel
  have hkeyed : w.Keyed := List.pairwise_pair.mpr fun u hu =>
    absurd (Json.str.inj (hu.1.trans hu.2.symm)) (by decide)
  obtain ⟨edit, c, hrun, hc, hkind⟩ := exists_entry hentry
  have hu : c.uri = .str "b" := Json.same_str.mp hkind
  exact ⟨edit, c, hrun, hc, hu, rename_stamped rfl hkeyed rfl rfl hrun hc hu⟩

/-- The document changes while its edits are grouped: the entry has the old
ranges and the new version. -/
theorem rename_not_honest :
    let service : RenameService := ⟨Chain.standard, 1, fun _ => .done ()⟩
    let w : Workspace := ⟨[⟨.str "a", .str "$a;", .null, .int 1⟩]⟩
    let schedule : Schedule := fun n =>
      if n = 1 then [.update (.str "a") (.str "  $a;") (.int 2)] else []
    let params : Json := .obj [("textDocument", .obj [("uri", .str "a")]),
      ("position", .obj [("line", .int 0), ("character", .int 1)]), ("newName", .str "b")]
    ∃ edit c, ((service.rename params).run (fun _ => .absent) schedule 0 w).result = .ok edit ∧
      c ∈ edit.changes ∧ c.uri = .str "a" ∧
      (∀ n, (worlds schedule w n).has (.str "a") = .ok true) ∧
      ∀ n, ¬ Honest (worlds schedule w) n (IsTarget (fun _ => .absent) w params) "a" c := by
  intro service w schedule params
  have hentry : hasEntry ((service.rename params).run (fun _ => .absent) schedule 0 w).result
      (fun c => c.uri.same (.str "a") && c.version.same (.int 2) &&
        c.edits.any fun e => e.range = ⟨⟨0, 0⟩, ⟨0, 2⟩⟩) = true := by decide +kernel
  obtain ⟨edit, c, hrun, hc, hkind⟩ := exists_entry hentry
  simp only [Bool.and_eq_true, Json.same_str, List.any_eq_true, decide_eq_true_eq] at hkind
  obtain ⟨⟨hu, hversion⟩, e, he, hrange⟩ := hkind
  have hlater : ∀ n, worlds schedule w (n + 1) =
      ⟨[⟨.str "a", .str "  $a;", .null, .int 2⟩]⟩ := by
    intro n
    induction n with
    | zero => rfl
    | succ n ih => exact ih
  have hmoved : ∀ t ∈ Token.scan (Utf8.encode "  $a;"),
      (⟨⟨0, 0⟩, ⟨0, 2⟩⟩ : PositionRange) ≠ (LineIndex.ofText "  $a;").range t.range := by
    decide +kernel
  refine ⟨edit, c, hrun, hc, hu, fun n => ?_, ?_⟩
  · cases n with
    | zero => rfl
    | succ n => rw [hlater]; rfl
  · rintro n ⟨m, d, text, -, hd, htext, hsame, hedits⟩
    cases m with
    | zero =>
      obtain rfl := Option.some.inj hd
      rw [hsame] at hversion
      exact absurd hversion (by decide)
    | succ m =>
      rw [hlater] at hd
      obtain rfl := Option.some.inj hd
      obtain rfl := Json.str.inj htext
      obtain ⟨t, ht, heq, -⟩ := hedits e he
      exact hmoved t ht (hrange.symm.trans heq)

end RenameServer.RenameService
