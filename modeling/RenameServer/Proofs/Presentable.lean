import Mathlib.Algebra.Group.Nat.Defs
import RenameServer.Proofs.Compatible
import RenameServer.Proofs.MovedEdits
import RenameServer.Proofs.Outcomes
import RenameServer.Proofs.Tidiness
import RenameServer.Proofs.Writing

/-!
Answers that can be presented to a client. A value is tame if it is within the
limits of nesting and of digits and no half of a surrogate pair stands alone in it.
If the open documents have tame URIs and versions and no text is of extreme length,
then a request with encodable parameters comes to a tame result, or to a fault whose
text can be encoded.
-/
namespace RenameServer

/-! ### Tame values -/

namespace Json

/-- A value that can be encoded, with at most `depth` arrays and objects inside each other. -/
structure Tame (depth : Nat) (x : Json) : Prop where
  within : Within depth x
  whole : Whole x

/-- Fields that can be encoded, with tame values. -/
def FieldsTame (depth : Nat) (fields : List (Str × Json)) : Prop :=
  ∀ f ∈ fields, (∃ text, f.1 = .plain text) ∧ f.2.Tame depth

variable {depth : Nat} {x : Json}

theorem Tame.mono {depth' : Nat} (h : x.Tame depth) (hle : depth ≤ depth') : x.Tame depth' :=
  ⟨h.within.mono hle, h.whole⟩

theorem tame_null : Tame depth .null := ⟨.null, whole_null⟩

theorem tame_bool (b : Bool) : Tame depth (.bool b) := ⟨.bool b, whole_bool b⟩

theorem tame_str (s : String) : Tame depth (.str s) := ⟨.str s, whole_str s⟩

theorem tame_int {n : Int} (h : n.natAbs < 10 ^ Integer.digitLimit) : Tame depth (.int n) :=
  ⟨.int ((Nat.length_toDigits_le_iff (by decide) (by decide)).mpr h), whole_int n⟩

/-- An integer of few digits. -/
theorem tame_int_of_lt {n : Int} (h : n.natAbs < 10 ^ 5) : Tame depth (.int n) :=
  tame_int (Nat.lt_of_lt_of_le h (Nat.pow_le_pow_right (by decide) (by decide)))

theorem tame_arr {items : List Json} (h : ∀ y ∈ items, y.Tame depth) :
    Tame (depth + 1) (.arr items) :=
  ⟨.arr fun y hy => (h y hy).within, whole_arr_iff.mpr fun y hy => (h y hy).whole⟩

theorem fieldsTame_nil : FieldsTame depth [] := List.forall_mem_nil _

theorem FieldsTame.cons {fields : List (Str × Json)} (h : FieldsTame depth fields) {key : String}
    (hx : x.Tame depth) : FieldsTame depth ((.plain key, x) :: fields) :=
  List.forall_mem_cons.mpr ⟨⟨⟨key, rfl⟩, hx⟩, h⟩

theorem FieldsTame.obj {fields : List (Str × Json)} (h : FieldsTame depth fields) :
    Tame (depth + 1) (.obj fields) :=
  ⟨.obj fun f hf => (h f hf).2.within, whole_obj_iff.mpr fun f hf => ⟨(h f hf).1, (h f hf).2.whole⟩⟩

theorem mem_of_lookup {key : Str} {fields : List (Str × Json)} (h : lookup key fields = some x) :
    ∃ f ∈ fields, f.2 = x := by
  obtain ⟨f, hfind, rfl⟩ := Option.map_eq_some_iff.mp h
  exact ⟨f, List.mem_of_find?_eq_some hfind, rfl⟩

theorem Whole.field? {key : Str} {value : Json} (h : value.Whole)
    (hx : value.field? key = some x) : x.Whole := by
  cases value with
  | obj fields =>
    obtain ⟨f, hf, rfl⟩ := mem_of_lookup hx
    exact (whole_obj_iff.mp h f hf).2
  | _ => cases hx

theorem Within.field? {key : Str} {value : Json} (h : value.Within (depth + 1))
    (hx : value.field? key = some x) : x.Within depth := by
  cases h with
  | obj hfields =>
    obtain ⟨f, hf, rfl⟩ := mem_of_lookup hx
    exact hfields f hf
  | _ => cases hx

/-- A value that can be encoded is shown by a plain text. -/
theorem Whole.display (h : x.Whole) : ∃ text, x.display = .plain text := by
  cases x with
  | ragged r => exact absurd h (not_whole_ragged r)
  | _ => exact ⟨_, rfl⟩

/-- What can name a document has nothing inside it. -/
theorem Tame.of_asKey {key : Json} (h : x.asKey = .ok key) (hx : x.Tame depth) : x.Tame 0 := by
  obtain ⟨hwithin, hwhole⟩ := hx
  refine ⟨?_, hwhole⟩
  cases hwithin with
  | null => exact .null
  | bool b => exact .bool b
  | int hdigits => exact .int hdigits
  | float y => exact .float y
  | str s => exact .str s
  | ragged r => exact .ragged r
  | arr _ => cases h
  | obj _ => cases h

end Json

open Json

/-! ### Results and faults -/

/-- A value with a property, or a fault whose text can be encoded. -/
def Presents {α : Type} (p : α → Prop) : Except Fault α → Prop
  | .ok a => p a
  | .error fault => fault.Plain

section

variable {α β : Type} {p : α → Prop} {q : β → Prop} {x : Except Fault α}

theorem Presents.bind {f : α → Except Fault β} (h : Presents p x)
    (hf : ∀ a, p a → Presents q (f a)) : Presents q (x >>= f) := by
  cases x with
  | error fault => exact h
  | ok a => exact hf a h

theorem Presents.map {f : α → β} (h : Presents p x) (hf : ∀ a, p a → q (f a)) :
    Presents q (x.map f) := by
  cases x with
  | error fault => exact h
  | ok a => exact hf a h

theorem Presents.imp {p' : α → Prop} (h : Presents p x) (hp : ∀ a, p a → p' a) : Presents p' x := by
  cases x with
  | error fault => exact h
  | ok a => exact hp a h

theorem presents_pure {a : α} (h : p a) : Presents p (pure a) := h

theorem presents_error {fault : Fault} (h : fault.Plain) : Presents p (.error fault) := h

theorem presents_ite {c : Prop} [Decidable c] {y : Except Fault α} (hx : Presents p x)
    (hy : Presents p y) : Presents p (if c then x else y) := by
  split
  · exact hx
  · exact hy

theorem presents_mapM {f : α → Except Fault β} {xs : List α} (h : ∀ a ∈ xs, Presents q (f a)) :
    Presents (fun ys => ∀ y ∈ ys, q y) (xs.mapM f) := by
  induction xs with
  | nil => exact List.forall_mem_nil _
  | cons a xs ih =>
    obtain ⟨ha, hxs⟩ := List.forall_mem_cons.mp h
    rw [List.mapM_cons]
    exact ha.bind fun b hb => (ih hxs).bind fun ys hys => List.forall_mem_cons.mpr ⟨hb, hys⟩

end

/-! ### Taking parameters apart -/

theorem plain_wrongKind (use : Use) (kind : Kind) : (Fault.wrongKind use kind).Plain := ⟨_, rfl⟩

theorem plain_documentNotFound {uri : Json} (h : uri.Whole) :
    (Fault.documentNotFound uri).Plain := by
  obtain ⟨text, htext⟩ := h.display
  exact ⟨"Document not found: " ++ text, by rw [Fault.message, htext]; rfl⟩

theorem Json.presents_need {value : Json} (h : value.Whole) (key : String) :
    Presents Whole (value.need key) := by
  cases value with
  | obj fields =>
    rw [need]
    split
    · next x hx => exact h.field? hx
    · exact ⟨_, rfl⟩
  | _ => exact ⟨_, rfl⟩

theorem Json.presents_toInt (value : Json) : Presents (fun _ => True) value.toInt := by
  cases value with
  | float x => cases x <;> first | trivial | exact ⟨_, rfl⟩
  | str s =>
    rw [toInt]
    cases Integer.ofText s <;> first | trivial | exact ⟨_, rfl⟩
  | ragged r =>
    rw [toInt]
    cases Integer.ofText r.marked <;> first | trivial | exact ⟨_, rfl⟩
  | _ => first | trivial | exact ⟨_, rfl⟩

theorem Json.presents_toText (use : Use) (value : Json) :
    Presents (fun text => value = .str text) (value.toText use) := by
  cases value <;> first | rfl | exact ⟨_, rfl⟩

namespace Position

theorem presents_ofJson {value : Json} (h : value.Whole) :
    Presents (fun _ => True) (ofJson value) :=
  (presents_need h "line").bind fun line _ => (presents_toInt line).bind fun _ _ =>
    (presents_need h "character").bind fun character _ =>
      (presents_toInt character).bind fun _ _ => trivial

theorem presents_toOffset (position : Position) (text : String) :
    Presents (fun _ => True) (position.toOffset text) := by
  rw [toOffset]
  split
  · exact ⟨_, rfl⟩
  · trivial

theorem presents_offsetInText (position : Position) (text : Json) :
    Presents (fun _ => True) (position.offsetInText text) := by
  cases text with
  | str s => exact presents_toOffset position s
  | ragged r =>
    exact (presents_toOffset position r.before).bind fun offset _ =>
      presents_ite trivial (presents_ite ⟨_, rfl⟩ ⟨_, rfl⟩)
  | _ => exact (presents_toOffset position "").bind fun _ _ => ⟨_, rfl⟩

end Position

/-! ### Positions -/

/-- So few that numbers up to twice as many have not too many digits. -/
def Brief (n : Nat) : Prop := n < 10 ^ (Integer.digitLimit - 1)

theorem Brief.of_le {m n : Nat} (h : Brief n) (hle : m ≤ n) : Brief m := Nat.lt_of_le_of_lt hle h

theorem tame_int_of_brief {n depth : Nat} {m : Int} (h : Brief n) (hm : m.natAbs ≤ 2 * n) :
    Tame depth (.int m) := by
  apply tame_int
  have hsucc : Integer.digitLimit = Integer.digitLimit - 1 + 1 := rfl
  rw [hsucc, Nat.pow_succ]
  unfold Brief at h
  omega

namespace Position

theorem width_le_two (c : Char) : width c ≤ 2 := by
  rw [width]
  split <;> omega

/-- Lines and columns are not more than the characters and twice as many. -/
theorem spot_le (text : List Char) :
    (spot text).1 ≤ text.length ∧ (spot text).2 ≤ 2 * text.length := by
  induction text using lineInduction with
  | nil => exact ⟨Nat.le_refl _, Nat.le_refl _⟩
  | crlf rest ih =>
    rw [spot, List.length_cons, List.length_cons]
    omega
  | stop c rest hc h ih =>
    rw [spot_stop hc h, List.length_cons]
    omega
  | plain c rest hc ih =>
    have hwidth := width_le_two c
    rw [spot_plain hc, List.length_cons]
    split <;> omega

theorem tame_toJson {position : Position} {n depth : Nat} (h : Brief n)
    (hline : position.line.natAbs ≤ 2 * n) (hcharacter : position.character.natAbs ≤ 2 * n) :
    position.toJson.Tame (depth + 1) :=
  ((fieldsTame_nil.cons (tame_int_of_brief h hcharacter)).cons (tame_int_of_brief h hline)).obj

end Position

namespace LineIndex

open Position

theorem tame_locate {text : String} (h : Brief text.length) {o : Nat}
    (ho : o ≤ (ofText text).bytes.length) (depth : Nat) :
    ((ofText text).locate o).toJson.Tame (depth + 1) := by
  obtain ⟨chars, rfl⟩ : ∃ chars, text = String.ofList chars := ⟨_, String.ofList_toList.symm⟩
  rw [bytes_ofText, ← byteLength_eq] at ho
  rw [String.length_ofList] at h
  rcases exists_place chars ho with ⟨q, y, rfl, rfl⟩ | ⟨p, x, k, rfl, hsplit, hk, rfl⟩
  · have hspot := spot_le q
    rw [List.length_append, List.length_cons] at h
    rw [locate_crlf q y]
    refine tame_toJson h ?_ ?_ <;> dsimp only <;> omega
  · have hspot := spot_le p
    rw [List.length_append] at h
    rw [locate_inside hsplit hk]
    refine tame_toJson h ?_ ?_ <;> dsimp only <;> omega

theorem tame_range {text : String} (h : Brief text.length) (r : ByteRange) (depth : Nat) :
    ((ofText text).range r).toJson.Tame (depth + 2) :=
  ((fieldsTame_nil.cons (tame_locate h (Nat.min_le_right ..) depth)).cons
    (tame_locate h (Nat.min_le_right ..) depth)).obj

end LineIndex

/-! ### Documents -/

/-- A document whose URI and version are tame. -/
structure Document.Labelled (depth : Nat) (d : Document) : Prop where
  uri : d.uri.Tame 0
  version : d.version.Tame depth

/-- A document whose text, if it can be encoded, is of no extreme length. -/
def Document.Short (d : Document) : Prop := ∀ text, d.text = .str text → Brief text.length

/-- A document that answers can speak of. -/
structure Document.Orderly (depth : Nat) (d : Document) : Prop extends d.Labelled depth where
  short : d.Short

/-- No file is of extreme length. -/
def Job.Disk.Brief (disk : Job.Disk) : Prop :=
  ∀ path bytes, disk path = .file bytes → RenameServer.Brief bytes.length

theorem Utf8.length_of_decodeFrom {bytes : Utf8.Bytes} {position : Nat} {chars : List Char}
    (h : decodeFrom position bytes = .ok chars) : chars.length ≤ bytes.length := by
  fun_induction decodeFrom position bytes generalizing chars with
  | case1 => obtain rfl := Except.ok.inj h; exact Nat.le_refl _
  | case2 position b rest u c hc =>
    rename_i ih
    obtain ⟨more, hmore, rfl⟩ := exists_of_map_ok h
    have hle := ih hmore
    rw [List.length_drop] at hle
    rw [List.length_cons, List.length_cons]
    omega
  | case3 => cases h

theorem Document.length_unixLines_le (chars : List Char) :
    (unixLines chars).length ≤ chars.length := by
  fun_induction unixLines chars with
  | case1 => exact Nat.le_refl _
  | case2 rest ih =>
    simp only [List.length_cons]
    omega
  | case3 c rest _ ih =>
    simp only [List.length_cons]
    omega

theorem Document.presents_ofFile {uri : Json} (huri : uri.Tame 0) {entry : FileEntry}
    (h : ∀ bytes, entry = .file bytes → Brief bytes.length) :
    Presents (Orderly 0) (ofFile uri entry) := by
  cases entry with
  | absent => exact plain_documentNotFound huri.whole
  | directory => exact plain_documentNotFound huri.whole
  | file bytes =>
    rw [ofFile]
    split
    · exact ⟨_, rfl⟩
    · next text hdecode =>
      refine ⟨⟨huri, tame_int_of_lt (by decide)⟩, fun shown hshown => ?_⟩
      obtain rfl := Json.str.inj hshown
      obtain ⟨chars, hchars, rfl⟩ := exists_of_map_ok hdecode
      have hfile := Utf8.length_of_decodeFrom hchars
      have hlines := length_unixLines_le chars
      rw [String.length_ofList, String.toList_ofList]
      exact (h bytes rfl).of_le (Nat.le_trans hlines hfile)

namespace Workspace

variable {w : Workspace} {uri : Json}

theorem presents_asKey (uri : Json) : Presents (fun key => key = uri) uri.asKey := by
  cases uri <;> first | rfl | exact ⟨_, rfl⟩

theorem presents_get (huri : uri.Whole) : Presents (fun d => d ∈ w.documents) (w.get uri) := by
  refine (presents_asKey uri).bind fun key hkey => ?_
  split
  · next d hfind => exact List.mem_of_find?_eq_some hfind
  · exact plain_documentNotFound huri

theorem presents_has (w : Workspace) (uri : Json) : Presents (fun _ => True) (w.has uri) :=
  (presents_asKey uri).bind fun _ _ => trivial

end Workspace

theorem Uri.presents_split (uri : List Char) : Presents (fun _ => True) (split uri) := by
  rw [split]
  dsimp only
  split
  · trivial
  · exact ⟨_, rfl⟩

theorem Uri.presents_pathOf {uri : Json} (h : uri.Whole) :
    Presents (fun _ => ∃ u, uri = .str u) (pathOf uri) := by
  cases uri with
  | str u =>
    rw [pathOf, toPath]
    exact (presents_split u.toList).bind fun parts _ =>
      presents_ite (presents_pure ⟨u, rfl⟩) (plain_documentNotFound h)
  | ragged r => cases not_whole_ragged r h
  | null => exact plain_documentNotFound h
  | _ =>
    rw [pathOf]
    · exact presents_ite (presents_error (plain_wrongKind _ _))
        (presents_error (plain_documentNotFound h))
    all_goals nofun

namespace Job

variable {disk : Disk} {w : Workspace} {depth : Nat} {uri : Json}

/-- The document at a URI, open or in a file. -/
theorem presents_located (hw : ∀ d ∈ w.documents, d.Orderly depth) (hdisk : disk.Brief)
    (huri : uri.Whole) : Presents (fun d => ∃ n, d.Orderly n) (located disk w uri) := by
  have hhas := w.presents_has uri
  cases hopen : w.has uri with
  | error fault =>
    rw [hopen] at hhas
    rw [located, locate, run, hopen]
    exact hhas
  | ok isOpen =>
    cases isOpen with
    | true =>
      rw [located, locate, run, hopen]
      dsimp only
      rw [run_ofExcept]
      exact (Workspace.presents_get huri).imp fun d hd => ⟨depth, hw d hd⟩
    | false =>
      rw [located_of_closed hopen]
      refine (Uri.presents_pathOf huri).bind fun path hstr => ?_
      obtain ⟨u, rfl⟩ := hstr
      split
      · exact ⟨_, rfl⟩
      · exact (Document.presents_ofFile (tame_str u) fun bytes => hdisk path bytes).imp
          fun d hd => ⟨0, hd⟩

end Job

namespace RenameService

open Job

variable {service : RenameService} {disk : Disk} {w : Workspace} {depth : Nat} {params : Json}
variable (hw : ∀ d ∈ w.documents, d.Orderly depth) (hdisk : disk.Brief)

include hw

theorem presents_versionOf {uri : Json} (huri : uri.Whole) :
    Presents (Json.Tame depth) (versionOf w uri) := by
  refine (w.presents_has uri).bind fun isOpen _ => ?_
  cases isOpen with
  | true =>
    exact (Workspace.presents_get huri).bind fun d hd => (hw d hd).version
  | false => exact tame_int_of_lt (by decide)

include hdisk

/-- What a request is about: a document with a tame URI and a text of no extreme length. -/
theorem presents_target (hparams : params.Whole) :
    Presents (fun found : Source × Nat => found.1.uri.Tame 0 ∧ Brief found.1.text.length)
      ((target params).outcome disk w) := by
  simp only [target, outcome_bind, outcome_ofExcept, outcome_locate]
  have huri : Presents Whole (params.need "textDocument" >>= fun x => x.need "uri") :=
    (presents_need hparams _).bind fun document hdocument => presents_need hdocument _
  refine huri.bind fun uri huri =>
    (presents_located hw hdisk huri).bind fun document hdocument => ?_
  obtain ⟨n, hdocument⟩ := hdocument
  have hoffset : Presents (fun _ => True) (params.need "position" >>= fun x =>
      Position.ofJson x >>= fun position => position.offsetInText document.text) :=
    (presents_need hparams _).bind fun position hposition =>
      (Position.presents_ofJson hposition).bind fun position _ =>
        position.presents_offsetInText document.text
  exact hoffset.bind fun offset _ => (presents_toText _ _).bind fun text htext =>
    ⟨hdocument.uri, hdocument.short text htext⟩

theorem presents_prepare (hparams : params.Whole) :
    Presents (Json.Tame 2) ((service.prepare params).outcome disk w) := by
  rw [outcome_prepare]
  refine (presents_target hw hdisk hparams).map fun found hfound => ?_
  obtain ⟨source, offset⟩ := found
  dsimp only [prepared]
  split
  · exact tame_null
  · exact LineIndex.tame_range hfound.2 _ 0

omit hw hdisk in
theorem uri_of_add {p : Json → Prop} {map next : EditMap} {e : LocatedEdit}
    (h : map.add e = .ok next) (he : p e.uri) (hmap : ∀ g ∈ map.groups, p g.uri) :
    ∀ g ∈ next.groups, p g.uri := by
  obtain ⟨groups, haddTo, rfl⟩ := exists_of_map_ok h
  rcases EditMap.addTo_cases e.uri e.textEdit map.groups with
    ⟨-, hnew⟩ | ⟨front, g, back, hgroups, -, -, hadd⟩
  · obtain rfl := Except.ok.inj (haddTo.symm.trans hnew)
    exact List.forall_mem_append.mpr ⟨hmap, List.forall_mem_singleton.mpr he⟩
  · rw [hgroups] at hmap
    obtain ⟨hfront, hback⟩ := List.forall_mem_append.mp hmap
    obtain ⟨hg, hback⟩ := List.forall_mem_cons.mp hback
    obtain ⟨g', hg', rfl⟩ := exists_of_map_ok (hadd.symm.trans haddTo)
    have huri : g'.uri = g.uri := by
      cases hmerged : g.add e.textEdit with
      | error other =>
        rw [hmerged] at hg'
        cases hg'
      | ok merged =>
        rw [hmerged] at hg'
        obtain rfl := Except.ok.inj hg'
        exact EditGroup.uri_of_add hmerged
    exact List.forall_mem_append.mpr ⟨hfront, List.forall_mem_cons.mpr ⟨huri ▸ hg, hback⟩⟩

omit hw hdisk in
/-- The groups of tame edits are tame, and so is a conflict between them. -/
theorem uri_of_foldlM_add {p : Json → Prop} {es : List LocatedEdit} (hes : ∀ e ∈ es, p e.uri)
    {map : EditMap} (hmap : ∀ g ∈ map.groups, p g.uri) :
    (∀ conflict, es.foldlM EditMap.add map = .error conflict → p conflict.uri) ∧
      ∀ result, es.foldlM EditMap.add map = .ok result → ∀ g ∈ result.groups, p g.uri := by
  induction es generalizing map with
  | nil =>
    refine ⟨fun conflict hfold => ?_, fun result hfold => ?_⟩
    · cases hfold
    · obtain rfl := Except.ok.inj hfold
      exact hmap
  | cons e es ih =>
    obtain ⟨he, hrest⟩ := List.forall_mem_cons.mp hes
    simp only [List.foldlM_cons]
    cases hadd : map.add e with
    | error first =>
      refine ⟨fun conflict hfold => ?_, fun result hfold => ?_⟩
      · obtain rfl := Except.error.inj hfold
        exact EditMap.uri_of_add_error hadd ▸ he
      · cases hfold
    | ok next => exact ih hrest (uri_of_add hadd he hmap)

/-- A failure with a text that can be encoded, or edits in documents of a certain kind. -/
def Fitting (p : Json → Prop) : Except Failure (List LocatedEdit) → Prop
  | .error failure => ∃ text, failure.message = .plain text
  | .ok edits => ∀ e ∈ edits, p e.uri

omit hw hdisk in
theorem presents_collected {p : Json → Prop} {fault : Option Fault} (hfault : ∀ f ∈ fault, f.Plain)
    {items : List Step} (hitems : ∀ step ∈ items, step.Fits p) {edits : List LocatedEdit}
    (hedits : ∀ e ∈ edits, p e.uri) :
    Presents (Fitting p) (collected fault edits items) := by
  induction items generalizing edits with
  | nil =>
    cases fault with
    | none => exact hedits
    | some f => exact hfault f rfl
  | cons step rest ih =>
    obtain ⟨hstep, hrest⟩ := List.forall_mem_cons.mp hitems
    cases step with
    | failure failure => exact hstep
    | edit e =>
      exact ih hrest (List.forall_mem_append.mpr ⟨hedits, List.forall_mem_singleton.mpr hstep⟩)

omit hw hdisk in
/-- Tame edits are grouped, or the reason why not is shown. -/
theorem presents_grouped {shown : Str → Except Fault Unit}
    (hshown : ∀ text : String, shown (.plain text) = .ok ())
    {drawn : Stream.Drawn Step} (hfault : ∀ f ∈ drawn.fault, f.Plain)
    (hitems : ∀ step ∈ drawn.items, step.Fits (Json.Tame 0)) :
    Presents (fun map? : Option EditMap => ∀ map ∈ map?, ∀ g ∈ map.groups, g.uri.Tame 0)
      (grouped shown drawn) := by
  refine (presents_collected hfault hitems (List.forall_mem_nil _)).bind fun edits hedits => ?_
  cases edits with
  | error failure =>
    obtain ⟨text, htext⟩ := hedits
    rw [mapped, htext, hshown]
    exact fun _ hnone => absurd hnone (by simp)
  | ok es =>
    obtain ⟨herror, hok⟩ := uri_of_foldlM_add hedits (List.forall_mem_nil _)
    rw [mapped]
    split
    · next conflict hconflict =>
      obtain ⟨text, htext⟩ := (herror conflict hconflict).whole.display
      rw [Conflict.message, htext]
      change Presents _ ((shown (.plain _)).map _)
      rw [hshown]
      exact fun _ hnone => absurd hnone (by simp)
    · next map hmap =>
      exact fun _ hsome => Option.some.inj hsome ▸ hok map hmap

/-- The entry of a group: the nesting is that of a position or of a version. -/
theorem presents_entry {n : Nat} (hn : 4 ≤ n) (hdepth : depth + 1 ≤ n) {g : EditGroup}
    (hg : g.uri.Tame 0) :
    Presents (fun change : DocumentChange => change.toJson.Tame (n + 1)) (entry disk w g) := by
  refine (presents_located hw hdisk hg.whole).bind fun document hdocument =>
    (presents_toText _ _).bind fun text htext => (presents_versionOf hw hg.whole).bind
      fun version hversion => ?_
  obtain ⟨m, hdocument⟩ := hdocument
  have hedit : ∀ e ∈ g.edits.map (LineIndex.ofText text).edit, e.toJson.Tame 3 := by
    intro e he
    obtain ⟨e, -, rfl⟩ := List.mem_map.mp he
    exact ((fieldsTame_nil.cons (tame_str _)).cons
      (LineIndex.tame_range (hdocument.short text htext) _ 0)).obj
  have hedits : Json.Tame n
      (.arr ((g.edits.map (LineIndex.ofText text).edit).map PositionEdit.toJson)) :=
    (tame_arr (List.forall_mem_map.mpr hedit)).mono hn
  have hversioned : (Json.obj [("uri", g.uri), ("version", version)]).Tame n :=
    ((fieldsTame_nil.cons hversion).cons (hg.mono (Nat.zero_le _))).obj.mono hdepth
  exact ((fieldsTame_nil.cons hedits).cons hversioned).obj

theorem presents_respond {n : Nat} (hn : 4 ≤ n) (hdepth : depth + 1 ≤ n) {map? : Option EditMap}
    (h : ∀ map ∈ map?, ∀ g ∈ map.groups, g.uri.Tame 0) :
    Presents (fun edit : WorkspaceEdit => edit.toJson.Tame (n + 3)) (respond disk w map?) := by
  have hedit : ∀ changes : List DocumentChange, (∀ c ∈ changes, c.toJson.Tame (n + 1)) →
      (WorkspaceEdit.mk changes).toJson.Tame (n + 3) := fun changes hchanges =>
    (fieldsTame_nil.cons (tame_arr (List.forall_mem_map.mpr hchanges))).obj
  cases map? with
  | none => exact hedit [] (List.forall_mem_nil _)
  | some map =>
    exact (presents_mapM fun g hg => presents_entry hw hdisk hn hdepth (h map rfl g hg)).map hedit

/-- A rename by a tidy renamer comes to a tame edit, or to a fault whose text can be encoded. -/
theorem presents_rename {n : Nat} (hn : 4 ≤ n) (hdepth : depth + 1 ≤ n)
    {shown : Str → Except Fault Unit} (hsend : service.Reaches disk shown)
    (hrenamer : service.renamer.Tidy) (hparams : params.Whole) :
    Presents (fun edit : WorkspaceEdit => edit.toJson.Tame (n + 3))
      ((service.rename params).outcome disk w) := by
  rw [outcome_rename hsend]
  refine (presents_target hw hdisk hparams).bind fun found hfound =>
    (presents_need hparams _).bind fun newName _ => ?_
  have hopen : ∀ d ∈ w.documents, d.uri.Tame 0 := fun d hd => (hw d hd).uri
  have hsteps := hrenamer (Json.Tame 0) found.1 found.2 newName hfound.1
  exact (presents_grouped hsend.plain (hsteps.fault hopen) (hsteps.items hopen)).bind
    fun map? hmap => presents_respond hw hdisk hn hdepth hmap

end RenameService

end RenameServer
