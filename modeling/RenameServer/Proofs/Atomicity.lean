import RenameServer.Proofs.Mirroring
import RenameServer.Proofs.OpenOrder

/-!
Content changes are applied all or not at all. A list of changes may go wrong at any
of them, after some have been made; the document is stored only when all of them
went through, so a list that fails leaves every document as it was. One that goes
through replaces the text and the version of its document and nothing else.
-/
namespace RenameServer

open Utf16 (encode)

/-! ### Which changes go through -/

/-- What a change makes of a text when it goes through. A change without a range takes
any value as the text. One with a range needs a text before and a text to put in, and
two carets. -/
inductive Change.Makes : Json → Json → Json → Prop
  | whole {text new : Json} {fields : List (Str × Json)}
      (range : Json.lookup "range" fields = none)
      (content : Json.lookup "text" fields = some new) : Makes text (.obj fields) new
  | part {change : Json} {start stop : Caret} {old new result : String}
      (asked : (Change.part start stop new).Asks change)
      (units : encode result.toList = (Change.part start stop new).apply (encode old.toList)) :
      Makes (.str old) change (.str result)

/-- What a list of changes makes of a text when all of them go through. -/
inductive Change.MakesAll : Json → List Json → Json → Prop
  | nil (text : Json) : MakesAll text [] text
  | cons {text next result change : Json} {rest : List Json} (first : Makes text change next)
      (others : MakesAll next rest result) : MakesAll text (change :: rest) result

theorem Utf16.encode_injective {s t : String} (h : encode s.toList = encode t.toList) : s = t := by
  have hjoin := congrArg Json.joinUnits h
  rw [joinUnits_encode, joinUnits_encode] at hjoin
  have hchars := congrArg Point.chars hjoin
  rw [Point.chars_map_char, Point.chars_map_char] at hchars
  exact String.toList_injective hchars

theorem Json.lookup_of_need {fields : List (Str × Json)} {key : String} {value : Json}
    (h : Json.need (.obj fields) key = .ok value) : Json.lookup key fields = some value := by
  rw [Json.need] at h
  split at h
  · next hlookup => rw [hlookup, Except.ok.inj h]
  · cases h

/-- Where a position has an offset in a text, it is a caret. -/
theorem Position.exists_caret {p : Position} {s : String} {n : Nat}
    (h : p.offsetInText (.str s) = .ok n) :
    ∃ c : Caret, p = c.position ∧ n = offsetIn c.line c.column (lines s.toList) := by
  obtain ⟨line, character⟩ := p
  rw [offsetInText, toOffset] at h
  split at h
  · cases h
  · next hpos =>
    change ¬(line < 0 ∨ character < 0) at hpos
    refine ⟨⟨line.toNat, character.toNat⟩, ?_, (Except.ok.inj h).symm⟩
    simp only [Caret.position, mk.injEq]
    omega

namespace Workspace

theorem makes_of_changeText {text change result : Json}
    (h : changeText text change = .ok result) : Change.Makes text change result := by
  cases change with
  | obj fields =>
    simp only [changeText] at h
    split at h
    · next hrange => exact .whole hrange (Json.lookup_of_need h)
    · next range hrange =>
      obtain ⟨first, hfirst, h⟩ := exists_of_bind_ok h
      obtain ⟨p, hp, h⟩ := exists_of_bind_ok h
      obtain ⟨start, hstart, h⟩ := exists_of_bind_ok h
      obtain ⟨last, hlast, h⟩ := exists_of_bind_ok h
      obtain ⟨q, hq, h⟩ := exists_of_bind_ok h
      obtain ⟨stop, hstop, h⟩ := exists_of_bind_ok h
      obtain ⟨old, hold, h⟩ := exists_of_bind_ok h
      obtain ⟨new, hnew, h⟩ := exists_of_bind_ok h
      obtain ⟨replacement, hreplacement, h⟩ := exists_of_bind_ok h
      obtain ⟨spliced, hsplice, h⟩ := exists_of_bind_ok h
      obtain rfl := Except.ok.inj h
      obtain rfl := RenameService.eq_str_of_toText hold
      obtain rfl := RenameService.eq_str_of_toText hreplacement
      obtain ⟨c, rfl, rfl⟩ := Position.exists_caret hstart
      obtain ⟨d, rfl, rfl⟩ := Position.exists_caret hstop
      obtain ⟨made, hmade, hunits⟩ := splice_carets old replacement c d
      obtain rfl := Except.ok.inj (hsplice.symm.trans hmade)
      exact .part (.part hrange hfirst hp hlast hq (Json.lookup_of_need hnew)) hunits
  | _ => cases h

/-- A change goes through in just these cases. -/
theorem changeText_eq_ok_iff {text change result : Json} :
    changeText text change = .ok result ↔ Change.Makes text change result := by
  refine ⟨makes_of_changeText, fun h => ?_⟩
  cases h with
  | whole range content =>
    rw [changeText, range]
    simp only [Json.need, content]
  | @part _ start stop old new result asked units =>
    obtain ⟨made, hmade, hunits⟩ := changeText_of_asks asked old
    rw [hmade, Utf16.encode_injective (hunits.trans units.symm)]

theorem foldlM_changeText_eq_ok_iff {changes : List Json} {text result : Json} :
    changes.foldlM changeText text = .ok result ↔ Change.MakesAll text changes result := by
  induction changes generalizing text with
  | nil =>
    refine ⟨fun h => ?_, fun h => ?_⟩
    · rw [← Except.ok.inj h]
      exact .nil text
    · cases h
      rfl
  | cons change rest ih =>
    rw [List.foldlM_cons]
    refine ⟨fun h => ?_, fun h => ?_⟩
    · obtain ⟨next, hnext, hrest⟩ := exists_of_bind_ok h
      exact .cons (changeText_eq_ok_iff.mp hnext) (ih.mp hrest)
    · cases h with
      | cons first others =>
        rw [changeText_eq_ok_iff.mpr first]
        exact ih.mpr others

/-! ### What they do to the documents -/

/-- What changes that go through do to the open documents: the document at the URI gets
the text that they make of its own, and the version. It keeps its language and its
place, and all other documents stay. -/
inductive Replaces (uri changes version : Json) : Workspace → Workspace → Prop
  | intro {k : Json.Key} {before behind : List Document} {d : Document} {items : List Json}
      {text : Json} (key : uri.key? = some k) (here : d.uri.key? = some k)
      (first : ∀ e ∈ before, e.uri.key? ≠ some k) (listed : changes.toItems = .ok items)
      (made : Change.MakesAll d.text items text) :
      Replaces uri changes version ⟨before ++ d :: behind⟩
        ⟨before ++ ⟨uri, text, d.languageId, version⟩ :: behind⟩

/-- An open document has its place behind documents with other URIs. -/
theorem get_eq_ok_iff {w : Workspace} {uri : Json} {d : Document} :
    w.get uri = .ok d ↔ ∃ k before behind, uri.key? = some k ∧ w = ⟨before ++ d :: behind⟩ ∧
      d.uri.key? = some k ∧ ∀ e ∈ before, e.uri.key? ≠ some k := by
  constructor
  · intro h
    obtain ⟨key, hkey, hget⟩ := exists_of_bind_ok h
    obtain ⟨rfl, k, hk⟩ := Json.key?_of_asKey hkey
    split at hget
    · next found hfind =>
      obtain rfl := Except.ok.inj hget
      obtain ⟨hsame, before, behind, hdocuments, hfirst⟩ := List.find?_eq_some_iff_append.mp hfind
      refine ⟨k, before, behind, hk, congrArg mk hdocuments, ?_, fun e he heq => ?_⟩
      · exact (Json.sameKey_iff.mp hsame).trans hk
      · simpa [Json.sameKey, heq, hk] using hfirst e he
    · cases hget
  · rintro ⟨k, before, behind, hkey, rfl, hhere, hfirst⟩
    have hfind : find? ⟨before ++ d :: behind⟩ uri = some d := by
      refine List.find?_eq_some_iff_append.mpr ⟨?_, before, behind, rfl, fun e he => ?_⟩
      · exact Json.sameKey_iff.mpr (hhere.trans hkey.symm)
      · simpa [Json.sameKey, hkey] using hfirst e he
    rw [get_of_asKey (Json.asKey_of_key? hkey), hfind]
    rfl

theorem insert_append {d other : Document} {before behind : List Document}
    (hbefore : ∀ e ∈ before, e.uri.key? ≠ d.uri.key?) (hother : other.uri.key? = d.uri.key?) :
    insert d (before ++ other :: behind) = before ++ d :: behind := by
  induction before with
  | nil => rw [List.nil_append, insert, if_pos (Json.sameKey_iff.mpr hother), List.nil_append]
  | cons e before ih =>
    obtain ⟨he, hrest⟩ := List.forall_mem_cons.mp hbefore
    rw [List.cons_append, insert, if_neg (mt Json.sameKey_iff.mp he), ih hrest, List.cons_append]

theorem applyChanges_eq_ok_iff {w w' : Workspace} {uri changes version : Json} :
    w.applyChanges uri changes version = .ok w' ↔ Replaces uri changes version w w' := by
  refine ⟨fun h => ?_, fun h => ?_⟩
  · obtain ⟨d, hd, h⟩ := exists_of_bind_ok h
    obtain ⟨items, hitems, h⟩ := exists_of_bind_ok h
    obtain ⟨text, htext, h⟩ := exists_of_bind_ok h
    obtain ⟨d', hd', hput⟩ := exists_of_bind_ok h
    obtain rfl := Except.ok.inj (hd.symm.trans hd')
    obtain rfl := Except.ok.inj hput
    obtain ⟨k, before, behind, hkey, rfl, hhere, hfirst⟩ := get_eq_ok_iff.mp hd
    rw [put, insert_append (by rwa [hkey]) (hhere.trans hkey.symm)]
    exact .intro hkey hhere hfirst hitems (foldlM_changeText_eq_ok_iff.mp htext)
  · cases h with
    | @intro k before behind d items text key here first listed made =>
      have hget := get_eq_ok_iff.mpr ⟨k, before, behind, key, rfl, here, first⟩
      have hfold := foldlM_changeText_eq_ok_iff.mpr made
      have hinsert : insert ⟨uri, text, d.languageId, version⟩ (before ++ d :: behind) =
          before ++ ⟨uri, text, d.languageId, version⟩ :: behind :=
        insert_append (fun e he => key ▸ first e he) (here.trans key.symm)
      simp only [applyChanges, update, hget, listed, hfold, bind, Except.bind, put, hinsert]
      rfl

/-! ### Stored on the way -/

/-- A program on the open documents. Where it fails, what it has stored by then stays. -/
abbrev Storing (α : Type) := EStateM Fault Workspace α

namespace Storing

/-- Find something out about the open documents and store nothing. -/
def ofExcept {α : Type} (f : Workspace → Except Fault α) : Storing α := fun w =>
  match f w with
  | .ok a => .ok a w
  | .error fault => .error fault w

def update (uri text version : Json) : Storing Unit := do
  let d ← ofExcept fun w => w.get uri
  modify fun w => w.put ⟨uri, text, d.languageId, version⟩

def applyChanges (uri changes version : Json) : Storing Unit := do
  let d ← ofExcept fun w => w.get uri
  let items ← ofExcept fun _ => changes.toItems
  let text ← items.foldlM (fun text change => ofExcept fun _ => changeText text change) d.text
  update uri text version

theorem run_ofExcept_bind {α β : Type} (f : Workspace → Except Fault α) (g : α → Storing β)
    (w : Workspace) :
    (ofExcept f >>= g).run w =
      match f w with
      | .ok a => (g a).run w
      | .error fault => .error fault w := by
  simp only [EStateM.run, bind, EStateM.bind, ofExcept]
  cases f w <;> rfl

/-- The outcome of a program that has stored nothing when it fails. -/
def outcome (w : Workspace) : Except Fault Workspace → EStateM.Result Fault Workspace Unit
  | .ok w' => .ok () w'
  | .error fault => .error fault w

theorem run_update (uri text version : Json) (w : Workspace) :
    (update uri text version).run w = outcome w (w.update uri text version) := by
  rw [update, Workspace.update, run_ofExcept_bind]
  cases w.get uri <;> rfl

/-- Nothing is stored between two changes. -/
theorem run_foldlM (items : List Json) (text : Json) (w : Workspace) :
    (items.foldlM (fun text change => ofExcept fun _ => changeText text change) text).run w =
      (ofExcept fun _ => items.foldlM changeText text).run w := by
  induction items generalizing text with
  | nil => rfl
  | cons change rest ih =>
    rw [List.foldlM_cons, run_ofExcept_bind, List.foldlM_cons]
    cases changeText text change with
    | ok next => exact ih next
    | error fault => rfl

theorem run_applyChanges (uri changes version : Json) (w : Workspace) :
    (applyChanges uri changes version).run w =
      outcome w (w.applyChanges uri changes version) := by
  rw [applyChanges, Workspace.applyChanges, run_ofExcept_bind]
  cases w.get uri with
  | error fault => rfl
  | ok d =>
    change EStateM.run (ofExcept _ >>= _) w = _
    rw [run_ofExcept_bind]
    cases changes.toItems with
    | error fault => rfl
    | ok items =>
      have hfold :
          items.foldlM (fun text change => ofExcept fun _ => changeText text change) d.text =
            ofExcept fun _ => items.foldlM changeText d.text := funext (run_foldlM items d.text)
      change EStateM.run (List.foldlM _ d.text items >>= _) w = outcome w
        (items.foldlM changeText d.text >>= fun text => w.update uri text version)
      rw [hfold, run_ofExcept_bind]
      cases items.foldlM changeText d.text with
      | error fault => rfl
      | ok text => exact run_update uri text version w

end Storing

/-- The URIs of the documents stay, in their order, when a document is replaced under a
string. -/
theorem Replaces.uris_eq {u : String} {changes version : Json} {w w' : Workspace}
    (h : Replaces (.str u) changes version w w') :
    w'.documents.map Document.uri = w.documents.map Document.uri := by
  cases h with
  | intro key here first listed made =>
    have hsame : _ = Json.str u := Json.key?_eq_text.mp (here.trans key.symm)
    simp only [List.map_append, List.map_cons, hsame]

/-- A list of content changes, whatever is wrong with them, either goes through and
replaces its document, or fails and leaves all documents as they were, although what
a program has stored before it fails stays stored. -/
theorem applyChanges_atomic (w : Workspace) (uri changes version : Json) :
    (∃ w', Replaces uri changes version w w' ∧
      w.applyChanges uri changes version = .ok w' ∧
      (Storing.applyChanges uri changes version).run w = .ok () w' ∧
      Operation.run w (.change uri changes version) = w' ∧
      ∀ u, uri = .str u → w'.documents.map Document.uri = w.documents.map Document.uri) ∨
    ∃ fault, (∀ w', ¬ Replaces uri changes version w w') ∧
      w.applyChanges uri changes version = .error fault ∧
      (Storing.applyChanges uri changes version).run w = .error fault w ∧
      Operation.run w (.change uri changes version) = w := by
  rw [Storing.run_applyChanges, Operation.run, Operation.apply]
  cases happly : w.applyChanges uri changes version with
  | ok w' =>
    have hreplaces := applyChanges_eq_ok_iff.mp happly
    refine .inl ⟨w', hreplaces, rfl, rfl, rfl, ?_⟩
    rintro u rfl
    exact hreplaces.uris_eq
  | error fault =>
    refine .inr ⟨fault, fun w' hreplaces => ?_, rfl, rfl, rfl⟩
    cases happly.symm.trans (applyChanges_eq_ok_iff.mpr hreplaces)

/-- A new text that goes through and then a line before the first one: the new text is
not kept. -/
theorem applyChanges_atomic_halfway :
    let w : Workspace :=
      ⟨[⟨.str "a", .str "x", .str "php", .int 1⟩, ⟨.str "b", .str "y", .null, .int 7⟩]⟩
    let start : Json := .obj [("line", .int (-1)), ("character", .int 0)]
    let changes : Json := .arr [.obj [("text", .str "new")],
      .obj [("range", .obj [("start", start)]), ("text", .str "z")]]
    let fault := Fault.badPosition (-1) 0
    w.applyChanges (.str "a") changes (.int 2) = .error fault ∧
      (Storing.applyChanges (.str "a") changes (.int 2)).run w = .error fault w ∧
      Operation.run w (.change (.str "a") changes (.int 2)) = w := by
  intro w start changes fault
  have hfails : w.applyChanges (.str "a") changes (.int 2) = .error fault := rfl
  rcases applyChanges_atomic w (.str "a") changes (.int 2) with
    ⟨w', -, hok, -⟩ | ⟨other, -, hother, hrun, hkept⟩
  · cases hfails.symm.trans hok
  · obtain rfl := Except.error.inj (hfails.symm.trans hother)
    exact ⟨hfails, hrun, hkept⟩

end Workspace

end RenameServer
