import Mathlib.Data.List.Nodup
import RenameServer.Proofs.Answerable
import RenameServer.Proofs.RoundTrips

/-!
Whether the replies depend on how the messages come. A request that comes alone is
answered from the documents that the messages before it have made, and one that
comes together with all others, from the documents that all messages have made. So
the replies are the same if these documents are the same and the session does not
fail, and may differ otherwise.
-/
namespace RenameServer

open Utf8 (Bytes)
open Event Job

namespace Session

/-- Requests with different ids are told apart by their replies. -/
theorem mem_filterMap_reply {server : Server} (hserver : server.Replying) {disk : Disk}
    {served : List Arrival} (hids : (served.map fun a => a.request.id).Nodup) {a : Arrival}
    (ha : a ∈ served) (message : Json) :
    (a.request.id, message) ∈ served.filterMap (Arrival.reply? server disk) ↔
      a.reply? server disk = some (a.request.id, message) := by
  constructor
  · intro hmem
    obtain ⟨b, hb, hsome⟩ := List.mem_filterMap.mp hmem
    obtain rfl := List.inj_on_of_nodup_map hids hb ha (Arrival.id_of_reply? hserver hsome).symm
    exact hsome
  · exact fun hsome => List.mem_filterMap.mpr ⟨a, ha, hsome⟩

/-- Frames with any bodies that make requests with different ids. If they come one at a time,
a request is answered from the documents that the bodies before it have made; if they are
all there from the start, from the documents that all bodies before the end have made, as
long as the session does not fail. It fails if a body or the end of the input makes it fail,
or if it waits for a request that cannot be answered. In a smooth session every request is
answered both ways, and the two answers are one if the documents are the same. -/
theorem replies_delivered {places : Preset.Places} {catalogue : Preset.Catalogue}
    {preset : String} {every : Int} {fails : Event → Bool} {host : Host} {server : Server}
    {announced : List Event}
    (hserver : Program.assemble places catalogue preset every true fails host =
      .ok (server, announced))
    (disk : Disk) {frames bodies : List Bytes} (hframes : List.Forall₂ Frame.Carries frames bodies)
    (hids : ((bodies.filterMap (bodyRequest? host)).map Request.id).Nodup) (closed : Bool) :
    let t := absorb server .empty false bodies
    let later := t.arrivals.map (Arrival.movedTo t.workspace)
    let stop := atEnd server closed t.status
    let apart := replies (Program.converse server disk .initial
      (frames.map (·, false) ++ [([], closed)])).2
    let outcome := Program.converse server disk .initial [(frames.flatten, closed)]
    let buffered := replies outcome.2
    apart = t.arrivals.filterMap (Arrival.reply? server disk) ∧
      buffered.Subperm (later.filterMap (Arrival.reply? server disk)) ∧
      (¬ outcome.1.status.Failed →
        buffered.Perm (later.filterMap (Arrival.reply? server disk))) ∧
      (outcome.1.status.Failed ↔
        stop.Failed ∨ stop = .ended ∧ ∃ a ∈ later, a.reply? server disk = none) ∧
      (∀ a ∈ t.arrivals, ∀ message,
        ((a.request.id, message) ∈ apart ↔
          a.reply? server disk = some (a.request.id, message)) ∧
        ((a.request.id, message) ∈ buffered →
          (a.movedTo t.workspace).reply? server disk = some (a.request.id, message)) ∧
        (¬ outcome.1.status.Failed →
          ((a.request.id, message) ∈ buffered ↔
            (a.movedTo t.workspace).reply? server disk = some (a.request.id, message)) ∧
          (a.workspace = t.workspace →
            ((a.request.id, message) ∈ apart ↔ (a.request.id, message) ∈ buffered)))) ∧
      ((∀ e, fails e = false) →
        t.arrivals.map Arrival.request = (heard host bodies).filterMap (bodyRequest? host) ∧
        t.workspace = informed host .empty (heard host bodies) ∧
        ∀ a ∈ t.arrivals, ∃ before body after, heard host bodies = before ++ body :: after ∧
          bodyRequest? host body = some a.request ∧
          a.workspace = informed host .empty before) ∧
      ∀ depth, Smooth server disk depth bodies →
        ¬ outcome.1.status.Failed ∧ ∀ a ∈ t.arrivals,
          (∃ message, (a.request.id, message) ∈ apart) ∧
            ∃ message, (a.request.id, message) ∈ buffered := by
  obtain ⟨hreplying, rfl, rfl, -⟩ := Server.replying_of_assemble hserver
  intro t later stop apart outcome buffered
  have hapart : apart = t.arrivals.filterMap (Arrival.reply? server disk) :=
    replies_apart hreplying hframes disk .empty false closed
  obtain ⟨hconcluded, hwaits⟩ : Concluded server disk t stop later outcome
        (started server disk .initial [(frames.flatten, closed)]) ∧
      (stop = .ended → (∃ a ∈ later, a.reply? server disk = none) →
        outcome.1.status.Failed) :=
    concluded_buffered hreplying hframes disk .empty false closed
  have hnodup : (t.arrivals.map fun a => a.request.id).Nodup := by
    refine hids.sublist ?_
    rw [← Function.comp_def, ← List.map_map]
    exact (arrivals_sublist .empty false bodies).map Request.id
  have hlater : (later.map fun a => a.request.id).Nodup := by
    rw [List.map_map]
    exact hnodup
  have hmoved : ∀ a ∈ t.arrivals, a.movedTo t.workspace ∈ later := fun a => List.mem_map_of_mem
  have hfirst : ∀ a ∈ t.arrivals, ∀ message, (a.request.id, message) ∈ apart ↔
      a.reply? server disk = some (a.request.id, message) := by
    intro a ha message
    rw [hapart]
    exact mem_filterMap_reply hreplying hnodup ha message
  have hsecond : ¬ outcome.1.status.Failed → ∀ a ∈ t.arrivals, ∀ message,
      (a.request.id, message) ∈ buffered ↔
        (a.movedTo t.workspace).reply? server disk = some (a.request.id, message) := by
    intro hgood a ha message
    rw [(hconcluded.complete hgood).mem_iff]
    exact mem_filterMap_reply hreplying hlater (hmoved a ha) message
  have hstatus : outcome.1.status.Failed ↔
      stop.Failed ∨ stop = .ended ∧ ∃ a ∈ later, a.reply? server disk = none := by
    constructor
    · intro hfailed
      rcases hconcluded.status with hstop | ⟨hended, -, hnone⟩
      · exact .inl (hstop ▸ hfailed)
      · exact .inr ⟨hended, hnone⟩
    · rintro (hfailed | ⟨hended, hnone⟩)
      · rcases hconcluded.status with hstop | ⟨-, hfailed, -⟩
        · exact hstop ▸ hfailed
        · exact hfailed
      · exact hwaits hended hnone
  refine ⟨hapart, hconcluded.replies, hconcluded.complete, hstatus, fun a ha message =>
    ⟨hfirst a ha message, fun hmem => ?_, fun hgood =>
      ⟨hsecond hgood a ha message, fun hsame => ?_⟩⟩, fun hwritable => ?_, fun depth hsmooth => ?_⟩
  · exact (mem_filterMap_reply hreplying hlater (hmoved a ha) message).mp
      (hconcluded.replies.subset hmem)
  · rw [hfirst a ha, hsecond hgood a ha, ← hsame]
    rfl
  · obtain ⟨-, hworkspace, hrequests⟩ := absorb_spec hwritable .empty false bodies
    exact ⟨hrequests, hworkspace, fun a ha => exists_of_mem_arrivals hwritable ha⟩
  · obtain ⟨-, hworkspace, hrequests⟩ := absorb_spec hsmooth.writable .empty false bodies
    have hreached : ∀ a ∈ later, ∃ before, before <+: heard server.host bodies ∧
        a.workspace = informed server.host .empty before := by
      intro a ha
      obtain ⟨b, -, rfl⟩ := List.mem_map.mp ha
      exact ⟨_, List.prefix_refl _, hworkspace⟩
    obtain ⟨hanswered, -, hgood⟩ := hsmooth.concluded hreplying hconcluded hreached
    refine ⟨hgood, fun a ha => ⟨?_, ?_⟩⟩
    · obtain ⟨before, body, after, hheard, -, hmet⟩ := exists_of_mem_arrivals hsmooth.writable ha
      have hrequest : a.request ∈
          (heard server.host bodies).filterMap (bodyRequest? server.host) := by
        rw [← hrequests]
        exact List.mem_map_of_mem ha
      obtain ⟨message, hreply⟩ := hsmooth.exists_reply hreplying hrequest
        ⟨before, hheard ▸ List.prefix_append .., hmet⟩
      exact ⟨message, (hfirst a ha message).mpr hreply⟩
    · obtain ⟨message, hreply⟩ := hanswered _ (hmoved a ha)
      exact ⟨message, (hsecond hgood a ha message).mpr hreply⟩

end Session

/-! ### The default preset -/

theorem Preset.search_absent (paths : List String) :
    search (fun _ => .absent) paths = .ok none := by
  induction paths with
  | nil => rfl
  | cons path paths ih => exact ih

/-- Where no user has presets, the default preset is the one of the program. -/
theorem Preset.load_default : load ⟨"/", none, "/"⟩ (fun _ => .absent) "default" =
    .ok [Variable.renamer, Reference.renamer] := by
  have hpaths : ∃ paths, userPaths ⟨"/", none, "/"⟩ "default" = .ok paths := ⟨_, rfl⟩
  obtain ⟨paths, hpaths⟩ := hpaths
  have hfile : loadFile ("/" ++ "/" ++ "default" ++ extension) (bundled "default") =
      .ok (some [Variable.renamer, Reference.renamer]) := if_pos (by decide +kernel)
  rw [load, find, if_neg (by decide), hpaths]
  change (search (fun _ => .absent) paths >>= _) >>= _ = _
  rw [search_absent]
  change loadFile ("/" ++ "/" ++ "default" ++ extension) (bundled "default") >>= _ = _
  rw [hfile]
  rfl

namespace Session

/-- The server of the default preset, with a log that can be written. -/
def defaultServer (fails : Event → Bool) : Server :=
  ⟨⟨Chain.standard, 10, Server.send .usual true⟩, true, fails, .usual⟩

theorem assemble_default {fails : Event → Bool} (hwritable : ∀ e, fails e = false) :
    ∃ announced, Program.assemble ⟨"/", none, "/"⟩ (fun _ => .absent) "default" 10 true fails
      .usual = .ok (defaultServer fails, announced) := by
  obtain rfl : fails = fun _ => false := funext hwritable
  rw [Program.assemble, Preset.load_default]
  exact ⟨_, rfl⟩

/-! ### Messages as bodies -/

def bodyOf (message : Json) : Bytes := Utf8.encode (String.ofList message.chars)

theorem parseBody_bodyOf {message : Json} (hplain : message.Plain)
    (h : message.obstacle? Host.usual.reading = none) :
    Frame.parseBody Host.usual.reading (bodyOf message) = .ok message :=
  Frame.parseBody_chars hplain (Json.obstacle?_eq_none_iff.mp h)

theorem length_bodyOf_le (message : Json) :
    (bodyOf message).length ≤ 4 * message.chars.length := by
  rw [bodyOf, Utf8.encode_ofList]
  induction message.chars with
  | nil => exact Nat.le_refl _
  | cons c rest ih =>
    have hc := c.utf8Size_le_four
    rw [Utf8.encodeChars_cons, List.length_append, String.length_utf8EncodeChar, List.length_cons]
    omega

/-- A text that is not too long has a length that can be stated. -/
theorem carries_bodyOf {message : Json} (h : message.chars.length < 10 ^ 9) :
    Frame.Carries (Frame.wrap (bodyOf message)) (bodyOf message) := by
  apply Frame.carries_wrap
  have hlength := length_bodyOf_le message
  have hlimit : 10 ^ 10 ≤ 10 ^ Integer.digitLimit := Nat.pow_le_pow_right (by decide) (by decide)
  exact (Nat.length_toDigits_le_iff (by decide) (by decide)).mpr (by omega)

theorem carries_bodies {messages : List Json} (h : ∀ m ∈ messages, m.chars.length < 10 ^ 9) :
    List.Forall₂ Frame.Carries ((messages.map bodyOf).map Frame.wrap) (messages.map bodyOf) := by
  rw [List.map_map, List.forall₂_map_left_iff, List.forall₂_map_right_iff, List.forall₂_same]
  exact fun m hm => carries_bodyOf (h m hm)

theorem handle_bodyOf {server : Server} {message : Json}
    (h : Frame.parseBody server.host.reading (bodyOf message) = .ok message) (w : Workspace) :
    handle server w (bodyOf message) = receiveLogged server w message := by
  rw [handle, h]

theorem heard_bodyOf {host : Host} {messages : List Json}
    (h : ∀ m ∈ messages, Frame.parseBody host.reading (bodyOf m) = .ok m) :
    heard host (messages.map bodyOf) =
      (messages.takeWhile fun m => (ending? host.noting m).isNone).map bodyOf := by
  induction messages with
  | nil => rfl
  | cons m messages ih =>
    obtain ⟨hm, hrest⟩ := List.forall_mem_cons.mp h
    have hending : bodyEnding? host (bodyOf m) = ending? host.noting m := by rw [bodyEnding?, hm]
    cases hnone : ending? host.noting m with
    | none =>
      rw [List.map_cons, heard_cons_of_none (hending.trans hnone), ih hrest,
        List.takeWhile_cons_of_pos (by rw [hnone]; rfl), List.map_cons]
    | some status =>
      rw [List.map_cons, heard_cons_of_some (hending.trans hnone),
        List.takeWhile_cons_of_neg (by rw [hnone]; simp), List.map_nil]

theorem spoken_bodyOf {host : Host} {messages : List Json}
    (h : ∀ m ∈ messages, Frame.parseBody host.reading (bodyOf m) = .ok m) :
    Spoken host (messages.map bodyOf) messages := by
  rw [Spoken, List.forall₂_map_left_iff, List.forall₂_same]
  exact h

/-- A call without parameters. -/
def calling (id : Json) (name : String) : Json := .obj [("id", id), ("method", .str name)]

theorem parseBody_calling {id : Json} (hplain : id.Plain) (hwithin : id.Within 0) (name : String) :
    Frame.parseBody Host.usual.reading (bodyOf (calling id name)) = .ok (calling id name) := by
  refine Frame.parseBody_chars (by simpa [calling] using hplain) (.obj ?_)
  simp only [List.forall_mem_cons]
  exact ⟨hwithin.mono (Nat.zero_le _), .str _, List.forall_mem_nil _⟩

theorem addressed_calling (id : Json) (name : String) : Addressed (calling id name) :=
  ⟨⟨_, rfl⟩, .inr (Json.isText_str name)⟩

section

variable {messages : List Json} (h : ∀ m ∈ messages, ∃ id name, m = calling id name ∧
  id.Plain ∧ id.Within 0 ∧ name ∉ documentMethods)

include h

theorem spoken_calls : Spoken .usual (messages.map bodyOf) messages := by
  refine spoken_bodyOf fun m hm => ?_
  obtain ⟨id, name, rfl, hplain, hwithin, -⟩ := h m hm
  exact parseBody_calling hplain hwithin name

/-- Calls that are not about documents make a smooth session with the default preset. -/
theorem smooth_calls {fails : Event → Bool} (hwritable : ∀ e, fails e = false) :
    Smooth (defaultServer fails) (fun _ => .absent) 3 (messages.map bodyOf) where
  writable := hwritable
  tidy := Chain.tidy_standard
  allows := Host.allows_usual
  files := nofun
  modest := by
    refine List.forall_mem_map.mpr fun m hm => ?_
    obtain ⟨id, name, rfl, hplain, hwithin, -⟩ := h m hm
    refine ⟨_, parseBody_calling hplain hwithin name, addressed_calling id name, ?_⟩
    exact ((Json.fieldsTame_nil.cons (Json.tame_str name)).cons
      ⟨hwithin.mono (Nat.zero_le 2), hplain.whole⟩).obj
  texts := by
    intro before hbefore d hd
    have hnotice : ∀ b ∈ before, bodyNotice? (defaultServer fails).host b = none := by
      intro b hb
      obtain ⟨m, hm, rfl⟩ := List.mem_map.mp (hbefore.subset hb)
      obtain ⟨id, name, rfl, hplain, hwithin, hname⟩ := h m hm
      change (Frame.parseBody Host.usual.reading _).toOption.bind notice? = none
      rw [parseBody_calling hplain hwithin name]
      exact if_neg fun hnotice => hname hnotice.2
    rw [informed_of_no_notice hnotice] at hd
    cases hd

end

/-- Where only one request is spoken, no id comes twice. -/
theorem nodup_ids_of_spoken {host : Host} {bodies : List Bytes} {messages : List Json}
    (hspoken : Spoken host bodies messages) {q : Request}
    (h : messages.filterMap request? = [q]) :
    ((bodies.filterMap (bodyRequest? host)).map Request.id).Nodup := by
  have hrequests : bodies.filterMap (bodyRequest? host) = [q] :=
    (hspoken.filterMap request?).trans h
  rw [hrequests]
  exact List.nodup_singleton _

/-- A client opens a document. -/
def opening : Json :=
  .obj [("method", .str "textDocument/didOpen"),
    ("params", .obj [("textDocument", .obj [("uri", .str "a"), ("text", .str "$a;")])])]

/-- It asks what would be renamed at the start of the document. -/
def asking : Json :=
  .obj [("id", .int 1), ("method", .str "textDocument/prepareRename"),
    ("params", .obj [("textDocument", .obj [("uri", .str "a")]),
      ("position", .obj [("line", .int 0), ("character", .int 0)])])]

/-- It closes the document. -/
def closing : Json :=
  .obj [("method", .str "textDocument/didClose"),
    ("params", .obj [("textDocument", .obj [("uri", .str "a")])])]

/-- The variable at the start of the document. -/
def answering : Json :=
  Message.response (.int 1) (.obj [("start", .obj [("line", .int 0), ("character", .int 0)]),
    ("end", .obj [("line", .int 0), ("character", .int 2)])])

theorem parseBody_opening : Frame.parseBody Host.usual.reading (bodyOf opening) = .ok opening :=
  parseBody_bodyOf (by simp [opening]) (by decide)

theorem parseBody_asking : Frame.parseBody Host.usual.reading (bodyOf asking) = .ok asking :=
  parseBody_bodyOf (by simp [asking]) (by decide)

theorem parseBody_closing : Frame.parseBody Host.usual.reading (bodyOf closing) = .ok closing :=
  parseBody_bodyOf (by simp [closing]) (by decide)

/-- The document is open when the question comes. -/
def askingArrival : Arrival :=
  ⟨⟨.int 1, .str "textDocument/prepareRename", paramsOf asking⟩,
    ⟨[⟨.str "a", .str "$a;", .str "", .int 0⟩]⟩, false⟩

section

variable {first second third : Bytes} {server : Server}
  (hserver : server = defaultServer fun _ => false)
  (hfirst : ∀ w, handle server w first = receiveLogged server w opening)
  (hsecond : ∀ w, handle server w second = receiveLogged server w asking)

include hserver hfirst hsecond

theorem absorb_asking : ∃ events, absorb server .empty false [first, second] =
    ⟨events, askingArrival.workspace, false, [askingArrival], .running⟩ := by
  simp only [absorb, hfirst, hsecond]
  subst hserver
  exact ⟨_, rfl⟩

theorem absorb_closing (hthird : ∀ w, handle server w third = receiveLogged server w closing) :
    ∃ events, absorb server .empty false [first, second, third] =
      ⟨events, .empty, false, [askingArrival], .running⟩ := by
  simp only [absorb, hfirst, hsecond, hthird]
  subst hserver
  exact ⟨_, rfl⟩

end

/-- A question about an open document gets the same answer both ways. -/
theorem replies_delivered_opening :
    let bodies := [opening, asking].map bodyOf
    let frames := bodies.map Frame.wrap
    let server := defaultServer fun _ => false
    let disk : Disk := fun _ => .absent
    List.Forall₂ Frame.Carries frames bodies ∧
      ((bodies.filterMap (bodyRequest? .usual)).map Request.id).Nodup ∧
      (.int 1, answering) ∈ replies (Program.converse server disk .initial
        (frames.map (·, false) ++ [([], true)])).2 ∧
      (.int 1, answering) ∈
        replies (Program.converse server disk .initial [(frames.flatten, true)]).2 := by
  intro bodies frames server disk
  obtain ⟨announced, hserver⟩ := @assemble_default (fun _ => false) fun _ => rfl
  obtain ⟨events, habsorb⟩ : ∃ events, absorb server .empty false bodies = _ :=
    absorb_asking rfl (handle_bodyOf parseBody_opening) (handle_bodyOf parseBody_asking)
  have hframes : List.Forall₂ Frame.Carries frames bodies := carries_bodies (by decide +kernel)
  have hspoken : Spoken .usual bodies [opening, asking] :=
    .cons parseBody_opening (.cons parseBody_asking .nil)
  have hids : ((bodies.filterMap (bodyRequest? .usual)).map Request.id).Nodup :=
    nodup_ids_of_spoken hspoken (q := askingArrival.request) rfl
  have hreply : askingArrival.reply? server disk = some (.int 1, answering) := by decide +kernel
  obtain ⟨-, -, -, hfailed, heach, -, -⟩ := replies_delivered hserver disk hframes hids true
  rw [habsorb] at hfailed heach
  obtain ⟨hfirst, -, hsecond⟩ := heach askingArrival List.mem_cons_self answering
  have hgood :
      ¬ (Program.converse server disk .initial [(frames.flatten, true)]).1.status.Failed := by
    rw [hfailed]
    rintro (⟨fault, hfault⟩ | ⟨-, a, ha, hnone⟩)
    · cases hfault
    · obtain rfl := List.mem_singleton.mp ha
      cases hnone.symm.trans hreply
  exact ⟨hframes, hids, hfirst.mpr hreply, (hsecond hgood).1.mpr hreply⟩

/-- If the document is closed behind the question, it makes a difference whether
the closing is already there when the question is read. -/
theorem replies_differ :
    let bodies := [opening, asking, closing].map bodyOf
    let frames := bodies.map Frame.wrap
    let server := defaultServer fun _ => false
    let disk : Disk := fun _ => .absent
    (∃ announced, Program.assemble ⟨"/", none, "/"⟩ (fun _ => .absent) "default" 10 true
        (fun _ => false) .usual = .ok (server, announced)) ∧
      List.Forall₂ Frame.Carries frames bodies ∧
      ((bodies.filterMap (bodyRequest? .usual)).map Request.id).Nodup ∧
      (.int 1, answering) ∈ replies (Program.converse server disk .initial
        (frames.map (·, false) ++ [([], true)])).2 ∧
      (.int 1, answering) ∉
        replies (Program.converse server disk .initial [(frames.flatten, true)]).2 := by
  intro bodies frames server disk
  obtain ⟨events, hall⟩ : ∃ events, absorb server .empty false bodies = _ :=
    absorb_closing rfl (handle_bodyOf parseBody_opening) (handle_bodyOf parseBody_asking)
      (handle_bodyOf parseBody_closing)
  have hframes : List.Forall₂ Frame.Carries frames bodies := carries_bodies (by decide +kernel)
  have hspoken : Spoken .usual bodies [opening, asking, closing] :=
    .cons parseBody_opening (.cons parseBody_asking (.cons parseBody_closing .nil))
  have hids : ((bodies.filterMap (bodyRequest? .usual)).map Request.id).Nodup :=
    nodup_ids_of_spoken hspoken (q := askingArrival.request) rfl
  obtain ⟨hreplying, -⟩ :=
    Server.replying_of_assemble (@assemble_default (fun _ => false) fun _ => rfl).choose_spec
  have hapart := replies_apart hreplying hframes disk .empty false true
  have hbuffered := (concluded_buffered hreplying hframes disk .empty false true).1.replies
  rw [hall] at hapart hbuffered
  refine ⟨assemble_default fun _ => rfl, hframes, hids, ?_, fun hmem => ?_⟩
  · have hmem : (.int 1, answering) ∈ [askingArrival].filterMap (Arrival.reply? server disk) := by
      decide +kernel
    rwa [← hapart] at hmem
  · have hnot : (.int 1, answering) ∉ ([askingArrival].map (Arrival.movedTo .empty)).filterMap
        (Arrival.reply? server disk) := by decide +kernel
    exact hnot (hbuffered.subset hmem)

end Session

end RenameServer
