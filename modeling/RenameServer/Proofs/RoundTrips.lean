import Mathlib.Algebra.Group.Int.Defs
import Mathlib.Data.List.Forall2
import Mathlib.Logic.Function.Iterate
import RenameServer.Proofs.Reading

/-!
Messages that are written one after the other are read back one after the other,
and what stands behind them is left. A writer has a frame for just those values
that keep to its limits, on the digits of integers and on nesting. What is written
comes back just if it keeps to the limits of the reader too, since a reader never
gives any other value.
-/
namespace RenameServer

open Utf8 (Bytes)

namespace Json

theorem Within.field {depth : Nat} {fields : List (Str × Json)}
    (h : Within (depth + 1) (.obj fields)) : ∀ f ∈ fields, Within depth f.2 := by
  cases h with
  | obj hfields => exact hfields

theorem not_within_pow {depth n : Nat} (h : Integer.digitLimit ≤ n) :
    ¬ Within depth (.int (10 ^ n)) := by
  intro hwithin
  cases hwithin with
  | int hdigits =>
    have hten : Int.natAbs 10 = 10 := rfl
    rw [Nat.length_toDigits_le_iff (by decide) (by decide), Int.natAbs_pow, hten] at hdigits
    have hle : 10 ^ Integer.digitLimit ≤ 10 ^ n := Nat.pow_le_pow_right (by decide) h
    omega

/-- A value inside `n` arrays. -/
def nested (n : Nat) : Json := (fun x => .arr [x])^[n] .null

theorem plain_nested (n : Nat) : (nested n).Plain := by
  induction n with
  | zero => exact .null
  | succ n ih =>
    rw [nested, Function.iterate_succ_apply']
    exact .arr (List.forall_mem_singleton.mpr ih)

theorem le_of_within_nested {depth n : Nat} (h : Within depth (nested n)) : n ≤ depth := by
  induction n generalizing depth with
  | zero => exact Nat.zero_le depth
  | succ n ih =>
    rw [nested, Function.iterate_succ_apply'] at h
    cases h with
    | arr hitems => exact Nat.succ_le_succ (ih (hitems _ List.mem_cons_self))

end Json

namespace Frame

/-- Read a number of messages, one after the other; none if there are not as many. -/
def readMany (depth : Nat) (closed : Bool) : Nat → Bytes → Option (List Json × Bytes)
  | 0, bytes => some ([], bytes)
  | n + 1, bytes =>
    match read depth closed bytes with
    | .message value rest =>
      (readMany depth closed n rest).map fun (values, left) => (value :: values, left)
    | _ => none

variable {depth : Nat}

theorem within_of_parseBody {body : Bytes} {value : Json}
    (h : parseBody depth body = .ok value) : value.Within depth := by
  unfold parseBody at h
  split at h
  · cases h
  · split at h
    · cases h
    · next hread =>
      obtain rfl := Except.ok.inj h
      exact Json.within_of_ofText hread

/-- Every message that is read keeps to the limits. -/
theorem within_of_read {closed : Bool} {bytes rest : Bytes} {value : Json}
    (h : read depth closed bytes = .message value rest) : value.Within depth := by
  unfold read at h
  split at h <;> try contradiction
  split at h <;> try contradiction
  split at h <;> try contradiction
  unfold readBody at h
  split at h <;> try contradiction
  split at h
  · split at h <;> contradiction
  · split at h <;> try contradiction
    next hparse =>
      obtain ⟨rfl, -⟩ := Outcome.message.inj h
      exact within_of_parseBody hparse

theorem within_of_readMany {closed : Bool} {n : Nat} {bytes rest : Bytes} {values : List Json}
    (h : readMany depth closed n bytes = some (values, rest)) :
    ∀ value ∈ values, value.Within depth := by
  induction n generalizing bytes rest values with
  | zero =>
    obtain ⟨rfl, -⟩ := Prod.mk.inj (Option.some.inj h)
    exact List.forall_mem_nil _
  | succ n ih =>
    rw [readMany] at h
    split at h
    · next value more hread =>
      obtain ⟨⟨others, left⟩, hothers, heq⟩ := Option.map_eq_some_iff.mp h
      obtain ⟨rfl, -⟩ := Prod.mk.inj heq
      exact List.forall_mem_cons.mpr ⟨within_of_read hread, ih hothers⟩
    · cases h

/-- The text of a value within the limits of the reader is read as that value. -/
theorem parseBody_chars {message : Json} (hplain : message.Plain) (h : message.Within depth) :
    parseBody depth (Utf8.encode (String.ofList message.chars)) = .ok message := by
  rw [parseBody, Utf8.decode_encode]
  simp only [Json.ofText_chars h hplain]

theorem holds_of_encode {writing reading : Nat} {message : Json} {frame : Bytes}
    (hframe : encode writing message = .ok frame) (hplain : message.Plain)
    (hlength : (Utf8.encode (String.ofList message.chars)).length < 10 ^ Integer.digitLimit)
    (h : message.Within reading) : Holds reading frame message := by
  obtain ⟨-, -, rfl⟩ := encode_eq_ok_iff.mp hframe
  have hcarries := carries_wrap ((Nat.length_toDigits_le_iff (by decide) (by decide)).mpr hlength)
  have hread : read reading false _ = _ := hcarries.read_append false []
  rwa [List.append_nil, Outcome.ofBody, parseBody_chars hplain h] at hread

theorem readMany_frames {frames : List Bytes} {messages : List Json}
    (h : List.Forall₂ (Holds depth) frames messages) (closed : Bool) (rest : Bytes) :
    readMany depth closed messages.length (frames.flatten ++ rest) = some (messages, rest) := by
  induction h with
  | nil => rfl
  | cons hframe _ ih =>
    rw [List.flatten_cons, List.append_assoc, List.length_cons, readMany,
      hframe.read_append closed]
    simp only [ih, Option.map_some]

/-- Values of which each is written within `writing` levels. Just those that keep to the
limits have a frame. The frames are read one after the other in their order within
`reading` levels, with the fields of objects in their order, and the bytes behind them
are left unread, if and only if every value keeps to the limits of the reader too. -/
theorem readMany_encode {messages : List Json} (hplain : ∀ m ∈ messages, m.Plain)
    (hlength : ∀ m ∈ messages,
      (Utf8.encode (String.ofList m.chars)).length < 10 ^ Integer.digitLimit)
    (writing reading : Nat) (closed : Bool) (rest : Bytes) :
    (∀ m ∈ messages, (∃ frame, encode writing m = .ok frame) ↔ m.Within writing) ∧
      ∀ frames, List.Forall₂ (fun m frame => encode writing m = .ok frame) messages frames →
        (readMany reading closed messages.length (frames.flatten ++ rest) =
            some (messages, rest) ↔
          ∀ m ∈ messages, m.Within reading) := by
  refine ⟨fun m hm => ?_, fun frames hframes => ⟨within_of_readMany, fun hwithin => ?_⟩⟩
  · constructor
    · rintro ⟨frame, hframe⟩
      exact (encode_eq_ok_iff.mp hframe).1
    · intro hwithin
      exact ⟨_, encode_eq_ok_iff.mpr ⟨hwithin, (hplain m hm).whole, rfl⟩⟩
  · have hall := (List.forall₂_and_left _ _).mpr
      ⟨fun m hm => And.intro (hplain m hm) (And.intro (hlength m hm) (hwithin m hm)), hframes⟩
    refine readMany_frames (hall.imp ?_).flip closed rest
    rintro m frame ⟨⟨hplain, hlength, hwithin⟩, hframe⟩
    exact holds_of_encode hframe hplain hlength hwithin

/-- Escapes, a character above the basic plane, a negative number and an empty
object come back, and the start of a further frame is left. -/
theorem readMany_encode_mixed :
    let messages : List Json :=
      [.obj [("id", .int (-12)), ("a", .arr [.str "\"\\\n\t𐐷é", .null, .obj []]), ("", .bool true)],
        .null, .str ""]
    (∀ m ∈ messages, m.Plain) ∧ (∀ m ∈ messages, m.Within 3) ∧
      ∃ frames, List.Forall₂ (fun m frame => encode 3 m = .ok frame) messages frames ∧
        readMany 5 false 3 (frames.flatten ++ Utf8.encode "Content-") =
          some (messages, Utf8.encode "Content-") := by
  intro messages
  have hplain : ∀ m ∈ messages, m.Plain := by
    simp only [messages, List.forall_mem_cons]
    refine ⟨.obj (by decide) ?_ ?_, .null, .str _, List.forall_mem_nil _⟩
    · simp
    simp only [List.forall_mem_cons]
    refine ⟨.int _, .arr ?_, .bool _, List.forall_mem_nil _⟩
    simp only [List.forall_mem_cons]
    exact ⟨.str _, .null, .obj List.nodup_nil (List.forall_mem_nil _) (List.forall_mem_nil _),
      List.forall_mem_nil _⟩
  have hwithin : ∀ m ∈ messages, m.Within 3 := by
    simp only [messages, List.forall_mem_cons]
    refine ⟨.obj ?_, .null, .str _, List.forall_mem_nil _⟩
    simp only [List.forall_mem_cons]
    refine ⟨.int (by decide), .arr ?_, .bool _, List.forall_mem_nil _⟩
    simp only [List.forall_mem_cons]
    exact ⟨.str _, .null, .obj (List.forall_mem_nil _), List.forall_mem_nil _⟩
  have hlength : ∀ m ∈ messages,
      (Utf8.encode (String.ofList m.chars)).length < 10 ^ Integer.digitLimit := by
    have hshort : ∀ m ∈ messages,
        (Utf8.encode (String.ofList m.chars)).length < 10 ^ 2 := by decide +kernel
    exact fun m hm =>
      Nat.lt_of_lt_of_le (hshort m hm) (Nat.pow_le_pow_right (by decide) (by decide))
  obtain ⟨hframe, hback⟩ := readMany_encode hplain hlength 3 5 false (Utf8.encode "Content-")
  obtain ⟨f, hf⟩ := (hframe _ (List.mem_cons_self ..)).mpr (hwithin _ (List.mem_cons_self ..))
  have hframes : List.Forall₂ (fun m frame => encode 3 m = .ok frame) messages
      [f, wrap (Utf8.encode "null"), wrap (Utf8.encode "\"\"")] :=
    .cons hf (.cons rfl (.cons rfl .nil))
  exact ⟨hplain, hwithin, _, hframes,
    (hback _ hframes).mpr fun m hm => (hwithin m hm).mono (by decide)⟩

/-- A call with parameters. -/
def asked (params : Json) : Json := .obj [("method", .str "x"), ("params", params)]

theorem plain_asked {params : Json} (h : params.Plain) : (asked params).Plain := by
  refine .obj (by simp) (by simp) ?_
  simp only [List.forall_mem_cons]
  exact ⟨.str _, h, List.forall_mem_nil _⟩

theorem within_of_within_asked {params : Json} (h : (asked params).Within (depth + 1)) :
    params.Within depth :=
  h.field ("params", params) (by simp)

/-- What is beyond the limits in a call has no frame, and its text is not read back. -/
theorem beyond_asked {params : Json} (h : ¬ params.Within depth) {depth' : Nat}
    (hle : depth' ≤ depth + 1) :
    (∀ frame, encode depth' (asked params) ≠ .ok frame) ∧ ∀ closed bytes rest,
      readMany depth' closed 1 bytes ≠ some ([asked params], rest) := by
  refine ⟨fun frame hframe => h ?_, fun closed bytes rest hread => h ?_⟩
  · exact within_of_within_asked ((encode_eq_ok_iff.mp hframe).1.mono hle)
  · exact within_of_within_asked ((within_of_readMany hread _ List.mem_cons_self).mono hle)

/-- However deep values may be nested, an integer of 4301 digits has no frame and is
never read. Where they may be nested 12000 times at most, the same is true of a call
with a value inside 12000 arrays. -/
theorem readMany_encode_beyond :
    let large := asked (.int (10 ^ Integer.digitLimit))
    let deep := asked (.nested 12000)
    (large.Plain ∧ ∀ depth, (∀ frame, encode depth large ≠ .ok frame) ∧
        ∀ closed bytes rest, readMany depth closed 1 bytes ≠ some ([large], rest)) ∧
      deep.Plain ∧ ∀ depth ≤ 12000, (∀ frame, encode depth deep ≠ .ok frame) ∧
        ∀ closed bytes rest, readMany depth closed 1 bytes ≠ some ([deep], rest) := by
  intro large deep
  refine ⟨⟨plain_asked (.int _), fun depth => ?_⟩, plain_asked (Json.plain_nested _),
    fun depth hdepth => ?_⟩
  · exact beyond_asked (Json.not_within_pow (Nat.le_refl _)) (Nat.le_succ depth)
  · have hbeyond : ¬ (Json.nested 12000).Within 11999 := fun hwithin =>
      absurd (Json.le_of_within_nested hwithin) (by decide)
    exact beyond_asked hbeyond hdepth

end Frame

end RenameServer
