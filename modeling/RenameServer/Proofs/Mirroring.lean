import RenameServer.Proofs.CodeUnits
import RenameServer.Proofs.Meaning

/-!
The server's copy of a document and the client's. A client keeps its text as
UTF-16 code units, and a change cuts them at two places. The server cuts bytes.
Both cut at the same characters, so after any list of changes the server holds
the text that the client has.
-/
namespace RenameServer

open Utf16 (encode place exists_split)

/-- A place in a text, as a client counts. -/
structure Caret where
  line : Nat
  column : Nat

/-- The position that a caret is sent as. -/
def Caret.position (c : Caret) : Position := ⟨c.line, c.column⟩

/-- A change that a client makes: a new text, or one for what lies between two carets. -/
inductive Change where
  | whole (text : String)
  | part (start stop : Caret) (text : String)

namespace Change

/-- What a change does to the client's units. When the carets are in the wrong
order, the units between them are kept on both sides. -/
def apply (units : List Nat) : Change → List Nat
  | .whole text => encode text.toList
  | .part start stop text =>
    units.take (place start.line start.column units) ++ encode text.toList ++
      units.drop (place stop.line stop.column units)

/-- A content change as it is sent. Fields that nobody reads may be there as well. -/
inductive Asks : Change → Json → Prop
  | whole {fields : List (Str × Json)} {text : String}
      (range : Json.lookup "range" fields = none)
      (content : Json.lookup "text" fields = some (.str text)) :
      Asks (.whole text) (.obj fields)
  | part {fields : List (Str × Json)} {between first last : Json} {start stop : Caret}
      {text : String} (range : Json.lookup "range" fields = some between)
      (head : between.need "start" = .ok first)
      (begins : Position.ofJson first = .ok start.position)
      (tail : between.need "end" = .ok last) (ends : Position.ofJson last = .ok stop.position)
      (content : Json.lookup "text" fields = some (.str text)) :
      Asks (.part start stop text) (.obj fields)

end Change

namespace Workspace

theorem toOffset_caret (c : Caret) (text : String) :
    c.position.toOffset text =
      .ok (Position.offsetIn c.line c.column (Position.lines text.toList)) :=
  Position.toOffset_natCast c.line c.column text

/-- A range of carets is replaced in the server's text as in the client's. -/
theorem splice_carets (text new : String) (start stop : Caret) :
    ∃ result,
      splice text (Position.offsetIn start.line start.column (Position.lines text.toList))
        (Position.offsetIn stop.line stop.column (Position.lines text.toList)) new = .ok result ∧
      encode result.toList = (Change.part start stop new).apply (encode text.toList) := by
  obtain ⟨p, x, hstart, hstartBytes, hstartUnits⟩ :=
    exists_split text.toList start.line start.column
  obtain ⟨q, y, hstop, hstopBytes, hstopUnits⟩ := exists_split text.toList stop.line stop.column
  refine ⟨String.ofList (p ++ (new.toList ++ y)), ?_, ?_⟩
  · rw [hstartBytes, hstopBytes, ← Applying.splice_of_splits hstart hstop new,
      String.ofList_toList]
  · have htake : (encode text.toList).take (encode p).length = encode p := by
      rw [hstart, Utf16.encode_append, List.take_left]
    have hdrop : (encode text.toList).drop (encode q).length = encode y := by
      rw [hstop, Utf16.encode_append, List.drop_left]
    rw [Change.apply, hstartUnits, hstopUnits, htake, hdrop, String.toList_ofList,
      Utf16.encode_append, Utf16.encode_append, List.append_assoc]

/-- One change. -/
theorem changeText_of_asks {change : Json} {asked : Change} (h : asked.Asks change)
    (text : String) :
    ∃ result, changeText (.str text) change = .ok (.str result) ∧
      encode result.toList = asked.apply (encode text.toList) := by
  cases h with
  | @whole fields new range content =>
    refine ⟨new, ?_, rfl⟩
    rw [changeText, range]
    simp only [Json.need, content]
  | @part fields between first last start stop new range head begins tail ends content =>
    obtain ⟨result, hsplice, hresult⟩ := splice_carets text new start stop
    refine ⟨result, ?_, hresult⟩
    have hnew : Json.need (.obj fields) "text" = .ok (.str new) := by
      rw [Json.need, content]
    rw [changeText, range]
    simp only [head, begins, tail, ends, hnew, bind, Except.bind, Position.offsetInText,
      toOffset_caret, Json.toText, hsplice]
    rfl

/-- A list of changes, each made in the result of the one before. -/
theorem foldlM_changeText_of_asks {changes : List Json} {asked : List Change}
    (h : List.Forall₂ Change.Asks asked changes) (text : String) :
    ∃ result, changes.foldlM changeText (.str text) = .ok (.str result) ∧
      encode result.toList = asked.foldl Change.apply (encode text.toList) := by
  induction h generalizing text with
  | nil => exact ⟨text, rfl, rfl⟩
  | cons hfirst _ ih =>
    obtain ⟨next, hnext, hunits⟩ := changeText_of_asks hfirst text
    obtain ⟨result, hfold, hresult⟩ := ih next
    refine ⟨result, ?_, ?_⟩
    · rw [List.foldlM_cons, hnext]
      exact hfold
    · rw [List.foldl_cons, ← hunits]
      exact hresult

/-- The server's copy of a document mirrors the client's. -/
theorem applyChanges_mirrors {w : Workspace} {u : String} {d : Document} {text : String}
    (hd : w.find? (.str u) = some d) (htext : d.text = .str text) {changes : List Json}
    {asked : List Change} (hasked : List.Forall₂ Change.Asks asked changes) (version : Json) :
    let units := asked.foldl Change.apply (encode text.toList)
    ∃ w' result, w.applyChanges (.str u) (.arr changes) version = .ok w' ∧
      w'.find? (.str u) = some ⟨.str u, .str result, d.languageId, version⟩ ∧
      encode result.toList = units ∧ .plain result = Str.ofPoints (Json.joinUnits units) := by
  intro units
  obtain ⟨result, hfold, hresult⟩ := foldlM_changeText_of_asks hasked text
  rw [← htext] at hfold
  obtain ⟨w', hw', hfind⟩ := find?_applyChanges hd hfold version
  refine ⟨w', result, hw', hfind, hresult, ?_⟩
  calc
    Str.plain result = Str.ofPoints (Json.joinUnits (encode result.toList)) := by
      rw [Utf16.joinUnits_encode, Str.ofPoints_map_char, String.ofList_toList]
    _ = Str.ofPoints (Json.joinUnits units) := by rw [hresult]

/-- A column inside a surrogate pair and one past the end of its line, then an
end before its start. -/
theorem applyChanges_mirrors_astral :
    let w : Workspace := ⟨[⟨.str "a", .str "a😀\r\nb", .null, .int 1⟩]⟩
    let sent : Nat → Nat → Json := fun line column =>
      .obj [("line", .int line), ("character", .int column)]
    let changes : List Json :=
      [.obj [("range", .obj [("start", sent 0 2), ("end", sent 0 99)]), ("text", .str "é")],
        .obj [("range", .obj [("start", sent 7 0), ("end", sent 0 1)]), ("text", .str "-")]]
    let asked : List Change := [.part ⟨0, 2⟩ ⟨0, 99⟩ "é", .part ⟨7, 0⟩ ⟨0, 1⟩ "-"]
    List.Forall₂ Change.Asks asked changes ∧
      ∃ w' result, w.applyChanges (.str "a") (.arr changes) (.int 2) = .ok w' ∧
        w'.find? (.str "a") = some ⟨.str "a", .str result, .null, .int 2⟩ ∧
        result = "aé\r\nb-é\r\nb" := by
  intro w sent changes asked
  have hasked : List.Forall₂ Change.Asks asked changes :=
    .cons (.part rfl rfl rfl rfl rfl rfl) (.cons (.part rfl rfl rfl rfl rfl rfl) .nil)
  obtain ⟨w', result, hw', hfind, -, hresult⟩ :=
    applyChanges_mirrors (w := w) (u := "a") rfl rfl hasked (.int 2)
  refine ⟨hasked, w', result, hw', hfind, Str.plain.inj (hresult.trans ?_)⟩
  decide +kernel

end Workspace

end RenameServer
