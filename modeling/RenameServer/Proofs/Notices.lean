import RenameServer.Proofs.OpenOrder
import RenameServer.Proofs.Responses

/-!
The workspace is made by the notifications about documents. Whatever else comes and
however the input is cut into pieces, the notifications before the end of the session
are applied in their order, and one that fails changes nothing. Among messages within
the limits of the reader and of the log the session ends at the first exit; a message
beyond them ends it too.
-/
namespace RenameServer.Session

open Utf8 (Bytes)
open Event Job

/-- Frames with any bodies, in any pieces: the workspace at the end is what the notifications
about documents make of an empty one, up to the first body that ends the session. Each URI
is listed once, in the order of its earliest opening since it was last closed. If the bodies
are messages within the limits, whose methods are texts, then these are the notifications
before the first exit. -/
theorem workspace_of_notices {places : Preset.Places} {catalogue : Preset.Catalogue}
    {preset : String} {every : Int} {level : Log.Level} {length : Int} {host : Host}
    {server : Server} {announced : List Event}
    (hserver : Program.assemble places catalogue preset every true
      (Program.failing ⟨level, some length⟩) host = .ok (server, announced))
    (disk : Disk) {frames bodies : List Bytes} (hframes : List.Forall₂ Frame.Carries frames bodies)
    {pieces : List Bytes} {last : Bytes} (hpieces : pieces.flatten ++ last = frames.flatten)
    (closed : Bool) :
    let ops := (heard host bodies).filterMap (bodyNotice? host)
    let session := (Program.converse server disk .initial
      (pieces.map (·, false) ++ [(last, closed)])).1
    session.workspace = ops.foldl Workspace.Operation.run .empty ∧
      session.workspace.Distinct ∧
      (∃ opened, Workspace.Listed ops session.workspace opened) ∧
      ∀ messages, Spoken host bodies messages →
        (∀ m ∈ messages, Addressed m ∧ m.Within host.noting) →
        ops = (messages.takeWhile fun m => !isExit m).filterMap notice? := by
  intro ops session
  obtain ⟨hreplying, hfails, rfl, -⟩ := Server.replying_of_assemble hserver
  have hwritable : ∀ e, server.fails e = false := by
    rw [hfails]
    exact Server.failing_of_length level length
  obtain ⟨served, hconcluded, -, -⟩ :=
    exists_concluded hwritable hreplying disk hframes hpieces closed
  have hworkspace : session.workspace = ops.foldl Workspace.Operation.run .empty :=
    hconcluded.workspace.trans (absorb_spec hwritable .empty false bodies).2.1
  obtain ⟨opened, hlisted⟩ := Workspace.exists_listed ops
  rw [hworkspace]
  refine ⟨rfl, hlisted.distinct, ⟨opened, hlisted⟩, fun messages hspoken haddressed => ?_⟩
  rw [← (takeWhile_of_addressed haddressed).1]
  exact hspoken.heard_filterMap notice?

/-- A notification with parameters. -/
def telling (name : String) (params : Json) : Json :=
  .obj [("method", .str name), ("params", params)]

theorem addressed_telling (name : String) (params : Json) : Addressed (telling name params) :=
  ⟨⟨_, rfl⟩, .inr (Json.isText_str name)⟩

/-- A notification about a document without anything but its URI. -/
def tellingOf (name uri : String) : Json :=
  telling name (.obj [("textDocument", .obj [("uri", .str uri)])])

/-- Two documents are opened, the first is closed and opened again after a shutdown, and
a change that names no document fails. What comes after the exit is not read. -/
theorem workspace_of_notices_reopened :
    let messages := [tellingOf "textDocument/didOpen" "a", tellingOf "textDocument/didOpen" "b",
      tellingOf "textDocument/didClose" "a", calling (.int 1) "shutdown",
      tellingOf "textDocument/didOpen" "a", telling "textDocument/didChange" (.arr [.null]),
      calling .null "exit", tellingOf "textDocument/didOpen" "c"]
    let bodies := messages.map bodyOf
    let frames := bodies.map Frame.wrap
    let server := defaultServer (Program.failing ⟨.info, some 4000⟩)
    List.Forall₂ Frame.Carries frames bodies ∧ Spoken .usual bodies messages ∧
      ∀ input ∈ [frames.map (·, false) ++ [([], true)], [(frames.flatten, true)]],
        (Program.converse server (fun _ => .absent) .initial input).1.workspace.documents.map
          (fun d => d.uri) = [.str "b", .str "a"] := by
  intro messages bodies frames server
  obtain ⟨announced, hserver⟩ := assemble_default (Server.failing_of_length .info 4000)
  have hframes : List.Forall₂ Frame.Carries frames bodies := carries_bodies (by decide +kernel)
  have hplain : ∀ m ∈ messages, m.Plain := by
    simp [messages, calling, telling, tellingOf]
  have haddressed : ∀ m ∈ messages, Addressed m ∧ m.Within 900 := by
    have hobstacle : ∀ m ∈ messages, Addressed m ∧ m.obstacle? 900 = none := by
      simp only [messages, List.forall_mem_cons]
      exact ⟨⟨addressed_telling .., rfl⟩, ⟨addressed_telling .., rfl⟩, ⟨addressed_telling .., rfl⟩,
        ⟨addressed_calling .., rfl⟩, ⟨addressed_telling .., rfl⟩, ⟨addressed_telling .., rfl⟩,
        ⟨addressed_calling .., rfl⟩, ⟨addressed_telling .., rfl⟩, List.forall_mem_nil _⟩
    exact fun m hm => (hobstacle m hm).imp_right Json.obstacle?_eq_none_iff.mp
  have hspoken : Spoken .usual bodies messages :=
    spoken_bodyOf fun m hm => Frame.parseBody_chars (hplain m hm) (haddressed m hm).2
  have hdocuments : ((((messages.takeWhile fun m => !isExit m).filterMap notice?).foldl
      Workspace.Operation.run .empty).documents.map fun d => d.uri) =
        [.str "b", .str "a"] := by decide +kernel
  refine ⟨hframes, hspoken, List.forall_mem_cons.mpr ⟨?_, List.forall_mem_singleton.mpr ?_⟩⟩
  · obtain ⟨hworkspace, -, -, hops⟩ := workspace_of_notices hserver (fun _ => .absent) hframes
      (List.append_nil frames.flatten) true
    rw [hworkspace, hops messages hspoken haddressed, hdocuments]
  · have hbuffered : [].flatten ++ frames.flatten = frames.flatten := List.nil_append _
    obtain ⟨hworkspace, -, -, hops⟩ := workspace_of_notices hserver (fun _ => .absent) hframes
      hbuffered true
    rw [hops messages hspoken haddressed] at hworkspace
    rw [← hdocuments, ← hworkspace]
    rfl

/-- The number of 4301 digits ends the session, and the document behind it is not opened. -/
theorem workspace_of_notices_beyond :
    let messages := [callingBeyond, tellingOf "textDocument/didOpen" "a"]
    let bodies := messages.map bodyOf
    let frames := bodies.map Frame.wrap
    let session := (Program.converse (defaultServer fun _ => false) (fun _ => .absent) .initial
      (frames.map (·, false) ++ [([], true)])).1
    (∀ m ∈ messages, m.Plain ∧ Addressed m ∧ isExit m = false) ∧
      List.Forall₂ Frame.Carries frames bodies ∧
      (((messages.filterMap notice?).foldl Workspace.Operation.run .empty).documents.map fun d =>
        d.uri) = [.str "a"] ∧
      session.workspace.documents = [] := by
  intro messages bodies frames session
  obtain ⟨announced, hserver⟩ := @assemble_default (fun _ => false) fun _ => rfl
  obtain ⟨hreplying, -⟩ := Server.replying_of_assemble hserver
  obtain ⟨fault, hfault⟩ := @bodyEnding?_of_readAll .usual callingBeyond readAll_callingBeyond
  have hframes : List.Forall₂ Frame.Carries frames bodies :=
    .cons carries_callingBeyond (.cons (carries_bodyOf (by decide +kernel)) .nil)
  obtain ⟨served, hconcluded, -, -⟩ := exists_concluded (fun _ => rfl) hreplying
    (fun _ => .absent) hframes (List.append_nil frames.flatten) true
  have hworkspace : session.workspace = informed .usual .empty (heard .usual bodies) :=
    hconcluded.workspace.trans (absorb_spec (fun _ => rfl) .empty false bodies).2.1
  refine ⟨?_, hframes, by decide +kernel, ?_⟩
  · simp only [messages, List.forall_mem_cons]
    exact ⟨⟨by simp [callingBeyond], ⟨⟨_, rfl⟩, .inr (Json.isText_str "x")⟩, rfl⟩,
      ⟨by simp [tellingOf, telling], addressed_telling .., rfl⟩, List.forall_mem_nil _⟩
  · have hheard : heard .usual bodies = [] := heard_cons_of_some hfault _
    rw [hworkspace, hheard]
    rfl

end RenameServer.Session
