import RenameServer.Proofs.Applying
import RenameServer.Proofs.Renaming

/-!
What a workspace edit means. While nobody else acts, the document of an entry is
the one whose tokens were found, so its changes do to the text what the byte
edits of the strategy do to its bytes.
-/
namespace RenameServer

open Splice

namespace Workspace

theorem find?_put {w : Workspace} {d : Document} {u : String} (hu : d.uri = .str u) :
    (w.put d).find? (.str u) = some d := by
  obtain ⟨documents⟩ := w
  induction documents with
  | nil => exact find?_cons_of_eq hu []
  | cons other rest ih =>
    rw [put, insert]
    split
    · exact find?_cons_of_eq hu rest
    · next hother =>
      have hne : other.uri ≠ .str u := by
        intro hsame
        rw [hsame, hu] at hother
        exact hother (Json.sameKey_str.mpr rfl)
      rw [find?_cons_of_ne hne]
      exact ih

/-- Changes that go through give the document its new text. -/
theorem find?_applyChanges {w : Workspace} {u : String} {d : Document} {changes : List Json}
    {result : String} (hd : w.find? (.str u) = some d)
    (hchanges : changes.foldlM changeText d.text = .ok (.str result)) (version : Json) :
    ∃ w', w.applyChanges (.str u) (.arr changes) version = .ok w' ∧
      w'.find? (.str u) = some ⟨.str u, .str result, d.languageId, version⟩ := by
  refine ⟨w.put ⟨.str u, .str result, d.languageId, version⟩, ?_, find?_put rfl⟩
  have hget : w.get (.str u) = .ok d := by rw [get_str, hd]
  have hupdate : w.update (.str u) (.str result) version =
      .ok (w.put ⟨.str u, .str result, d.languageId, version⟩) := by
    rw [update, hget]
    rfl
  have happly : w.applyChanges (.str u) (.arr changes) version =
      (changes.foldlM changeText d.text >>= fun text => w.update (.str u) text version) := by
    rw [applyChanges, hget]
    rfl
  rw [happly, hchanges]
  exact hupdate

end Workspace

namespace RenameService

/-- The changes of an entry, from the last to the first, splice the strategy's
edits into the bytes of the document. -/
theorem applyChanges_entry {service : RenameService} (hservice : service.renamer = Chain.standard)
    {w : Workspace} (hw : w.Keyed) {params uri : Json} (huri : requestUri params = .ok uri)
    (hopen : w.has uri = .ok true) {disk : Job.Disk} {edit : WorkspaceEdit}
    (h : ((service.rename params).run disk Job.alone 0 w).result = .ok edit) {c : DocumentChange}
    (hc : c ∈ edit.changes) {u : String} (hu : c.uri = .str u) (version : Json) :
    ∃ source offset newName d text result w',
      ((target params).run disk Job.alone 0 w).result = .ok (source, offset) ∧
      params.need "newName" = .ok newName ∧
      w.find? (.str u) = some d ∧ d.text = .str text ∧
      Utf8.encode result = splice (Utf8.encode text) (Step.editsAt u
        ((service.renamer.steps source offset newName).draw w none).items) ∧
      w.applyChanges (.str u) (.arr (c.edits.reverse.map Applying.asChange)) version = .ok w' ∧
      w'.find? (.str u) = some ⟨.str u, .str result, d.languageId, version⟩ := by
  obtain ⟨n, hyields⟩ := Job.yields_of_run (p := 0) h
  rw [Job.worlds_alone] at hyields
  have hworld : Nat → w.Keyed := fun _ => hw
  rcases renamed_of_rename hyields with rfl | hrenamed
  · cases hc
  · obtain ⟨r⟩ := hrenamed
    obtain ⟨hsome, j, k, d, text, -, -, -, hd, htext, hedits, -⟩ := r.entry hservice hworld hc hu
    obtain ⟨i, d', text', spell, -, hd', htext', hwrites, hes⟩ :=
      r.found hservice hworld huri hopen hsome
    obtain rfl := Except.ok.inj (hd.symm.trans (Job.located_of_find? hd'))
    obtain rfl := Json.str.inj (htext.symm.trans htext')
    obtain ⟨result, hchanged, hresult⟩ :=
      Applying.exists_changed_text hwrites.safe.keepsKinds text
    rw [← hes] at hchanged hresult
    have hchanges : (c.edits.reverse.map Applying.asChange).foldlM Workspace.changeText d.text =
        .ok (.str result) := by
      rw [htext, hedits, ← List.map_reverse, List.map_map]
      exact hchanged
    obtain ⟨w', hw', hfind⟩ := Workspace.find?_applyChanges hd' hchanges version
    refine ⟨r.source, r.offset, r.newName, d, text, result, w',
      r.targeted.result_run_of_le (Nat.le_refl 0), r.named, hd', htext, ?_, hw', hfind⟩
    rw [← r.drawn.eq_draw]
    exact hresult

/-- A variable on both sides of a CRLF, behind a character of four bytes. -/
theorem applyChanges_entry_astral :
    let service : RenameService := ⟨Chain.standard, 1, fun _ => .done ()⟩
    let w : Workspace := ⟨[⟨.str "a", .str "😀$x\r\n$x", .null, .int 1⟩]⟩
    let params : Json := .obj [("textDocument", .obj [("uri", .str "a")]),
      ("position", .obj [("line", .int 0), ("character", .int 3)]), ("newName", .str "long")]
    ∃ edit c, ((service.rename params).run (fun _ => .absent) Job.alone 0 w).result = .ok edit ∧
      c ∈ edit.changes ∧ c.uri = .str "a" ∧ ∃ source offset newName d text result w',
        ((target params).run (fun _ => .absent) Job.alone 0 w).result = .ok (source, offset) ∧
        params.need "newName" = .ok newName ∧
        w.find? (.str "a") = some d ∧ d.text = .str text ∧
        Utf8.encode result = splice (Utf8.encode text) (Step.editsAt "a"
          ((service.renamer.steps source offset newName).draw w none).items) ∧
        w.applyChanges (.str "a") (.arr (c.edits.reverse.map Applying.asChange)) (.int 2) =
          .ok w' ∧
        w'.find? (.str "a") = some ⟨.str "a", .str result, d.languageId, .int 2⟩ := by
  intro service w params
  have hentry : hasEntry ((service.rename params).run (fun _ => .absent) Job.alone 0 w).result
      (fun c => c.uri.same (.str "a")) = true := by decide +kernel
  obtain ⟨edit, c, hrun, hc, hkind⟩ := exists_entry hentry
  have hu : c.uri = .str "a" := Json.same_str.mp hkind
  exact ⟨edit, c, hrun, hc, hu,
    applyChanges_entry rfl (List.pairwise_singleton _ _) rfl rfl hrun hc hu (.int 2)⟩

end RenameService

end RenameServer
