import Mathlib.Data.List.TakeWhile
import RenameServer.Proofs.Boundaries
import RenameServer.Proofs.Jobs

/-!
Files by URI. A file URI writes the bytes of an absolute path, each as it is or
escaped, and names this path again: nothing in it is taken for a query, a
fragment or a name that vanishes. Only the slash at the front has to stand as it
is. What comes before the first slash that does is taken for a host and dropped.
-/
namespace RenameServer

open Utf8 (Bytes encodeChars)

theorem Utf8.encodeChars_eq_nil_iff {chars : List Char} : encodeChars chars = [] ↔ chars = [] := by
  refine ⟨fun h => ?_, fun h => by rw [h, encodeChars_nil]⟩
  rw [← decodeLossy_encodeChars chars, h, decodeLossy]

/-! ### Absolute paths -/

theorem Text.between_eq_splitOn (separator : Char) (text : List Char) :
    between separator text = text.splitOn separator := by
  induction text with
  | nil => rfl
  | cons c rest ih =>
    rw [between, List.splitOn_cons_eq_if_modifyHead, ih]
    cases hrest : rest.splitOn separator with
    | nil => exact absurd hrest (List.splitOn_ne_nil _ _)
    | cons part more => simp only [beq_iff_eq, List.modifyHead_cons]

namespace Path

theorem segments_append (left right : List Char) :
    segments (left ++ '/' :: right) = segments left ++ segments right := by
  simp only [segments, Text.between_eq_splitOn, List.splitOn_append_cons_self]

/-- A path from the root. No name in it is empty or a single dot, or holds a NUL. -/
structure Absolute where
  names : List (List Char)
  nonempty : ∀ s ∈ names, s ≠ []
  noSlash : ∀ s ∈ names, '/' ∉ s
  noNul : ∀ s ∈ names, '\x00' ∉ s
  notDot : ∀ s ∈ names, s ≠ ['.']

namespace Absolute

variable (p : Absolute)

def chars : List Char := '/' :: List.intercalate ['/'] p.names

def path : String := String.ofList p.chars

theorem segments_chars (h : p.names ≠ []) : segments p.chars = [] :: p.names := by
  have hjoined : segments (List.intercalate ['/'] p.names) = p.names := by
    rw [segments, Text.between_eq_splitOn, List.splitOn_intercalate '/' p.noSlash h]
  rw [chars, ← List.nil_append ('/' :: _), segments_append, hjoined]
  rfl

theorem names_chars : Path.names p.chars = p.names := by
  by_cases h : p.names = []
  · rw [chars, h]
    rfl
  · have hkept : p.names.filter (fun s => s ≠ [] ∧ s ≠ ['.']) = p.names := by
      rw [List.filter_eq_self]
      intro s hs
      exact decide_eq_true ⟨p.nonempty s hs, p.notDot s hs⟩
    rw [Path.names, p.segments_chars h, List.filter_cons_of_neg (by decide), hkept]

theorem root_chars : root p.chars = ['/'] := by
  have hnext : (List.intercalate ['/'] p.names).takeWhile (· = '/') = [] := by
    cases hnames : p.names with
    | nil => rfl
    | cons s rest =>
      have hs : s ∈ p.names := hnames ▸ List.mem_cons_self ..
      cases s with
      | nil => exact absurd rfl (p.nonempty _ hs)
      | cons c s =>
        have hc : c ≠ '/' := fun heq => p.noSlash _ hs (heq ▸ List.mem_cons_self ..)
        cases rest with
        | nil => simp [hc]
        | cons t rest => simp [hc]
  rw [root, chars, List.takeWhile_cons_of_pos (by decide), hnext]
  rfl

/-- An absolute path is in normal form. -/
theorem normalChars_chars : normalChars p.chars = p.chars := by
  rw [normalChars, p.root_chars, p.names_chars]
  rfl

theorem nul_not_mem_chars : '\x00' ∉ p.chars := by
  have hjoined : '\x00' ∉ List.intercalate ['/'] p.names := by
    have hnames := p.noNul
    generalize p.names = names at hnames
    induction names with
    | nil => simp
    | cons s rest ih =>
      obtain ⟨hs, hrest⟩ := List.forall_mem_cons.mp hnames
      cases rest with
      | nil => simpa using hs
      | cons t rest => simpa [hs] using ih hrest
  simp [chars, hjoined]

variable {p}

/-- A path from one of its slashes on is an absolute path as well. -/
theorem exists_of_append {front rest : List Char} (h : p.chars = front ++ '/' :: rest) :
    ∃ q : Absolute, q.chars = '/' :: rest := by
  by_cases hnames : p.names = []
  · refine ⟨p, ?_⟩
    rw [chars, hnames] at h ⊢
    cases front with
    | nil => exact h
    | cons c front => simp at h
  · have hsegments : [] :: p.names = segments front ++ segments rest := by
      rw [← p.segments_chars hnames, h, segments_append]
    have hmem : ∀ s ∈ segments rest, s ∈ p.names := by
      intro s hs
      cases hfront : segments front with
      | nil =>
        rw [segments, Text.between_eq_splitOn] at hfront
        exact absurd hfront (List.splitOn_ne_nil _ _)
      | cons first more =>
        rw [hfront] at hsegments
        rw [(List.cons.inj hsegments).2]
        exact List.mem_append_right more hs
    refine ⟨⟨segments rest, fun s hs => p.nonempty s (hmem s hs),
      fun s hs => p.noSlash s (hmem s hs), fun s hs => p.noNul s (hmem s hs),
      fun s hs => p.notDot s (hmem s hs)⟩, ?_⟩
    simp only [chars, segments, Text.between_eq_splitOn, List.intercalate_splitOn]

/-- Of the ends of a path only the whole is the path. -/
theorem rest_eq_iff {front rest : List Char} (h : p.chars = front ++ rest) :
    (if rest = [] then ['.'] else rest) = p.chars ↔ front = [] := by
  split
  · next hrest =>
    rw [hrest, List.append_nil] at h
    rw [← h]
    simp [chars]
  · rw [h, List.self_eq_append_left]

end Absolute

end Path

/-! ### Escapes -/

namespace Uri

/-- What may stand for itself in the path of a URI. -/
def isPlain (c : Char) : Bool :=
  Text.isLetter c ∨ ('0' ≤ c ∧ c ≤ '9') ∨ c ∈ ['/', '.', '_', '~', '-']

/-- A text that writes bytes. Any of them may be escaped, with digits in either case,
and all that are not plain have to be. -/
inductive Encodes : Bytes → List Char → Prop
  | nil : Encodes [] []
  | plain {bytes : Bytes} {text : List Char} (c : Char) (hc : isPlain c = true)
      (h : Encodes bytes text) : Encodes (UInt8.ofNat c.toNat :: bytes) (c :: text)
  | escaped {bytes : Bytes} {text : List Char} (b : UInt8) (high low : Char)
      (hhigh : Text.hexValue? high = some (b.toNat / 16))
      (hlow : Text.hexValue? low = some (b.toNat % 16)) (h : Encodes bytes text) :
      Encodes (b :: bytes) ('%' :: high :: low :: text)

theorem isPlain_of_hexValue? {c : Char} {n : Nat} (h : Text.hexValue? c = some n) :
    isPlain c = true := by
  have hletter : ∀ d, Text.isLetter d = true → isPlain d = true := by
    intro d hd
    simp [isPlain, hd]
  unfold Text.hexValue? at h
  split at h
  · next hdigit => simp [isPlain, hdigit]
  · split at h
    · next hlower =>
      exact hletter c (decide_eq_true (.inl ⟨hlower.1, Char.le_trans hlower.2 (by decide)⟩))
    · split at h
      · next hupper =>
        exact hletter c (decide_eq_true (.inr ⟨hupper.1, Char.le_trans hupper.2 (by decide)⟩))
      · cases h

theorem toNat_of_isPlain {c : Char} (h : isPlain c = true) : 0x20 < c.toNat ∧ c.toNat < 0x80 := by
  simp only [isPlain, Text.isLetter, decide_eq_true_eq, Char.le_def, UInt32.le_iff_toNat_le] at h
  rcases h with (hlower | hupper) | hdigit | hmark
  · change 97 ≤ c.toNat ∧ c.toNat ≤ 122 at hlower
    omega
  · change 65 ≤ c.toNat ∧ c.toNat ≤ 90 at hupper
    omega
  · change 48 ≤ c.toNat ∧ c.toNat ≤ 57 at hdigit
    omega
  · simp only [List.mem_cons, List.not_mem_nil, or_false] at hmark
    rcases hmark with rfl | rfl | rfl | rfl | rfl <;> decide

variable {bytes : Bytes} {text : List Char}

theorem Encodes.forall_mem (h : Encodes bytes text) : ∀ c ∈ text, c = '%' ∨ isPlain c = true := by
  induction h with
  | nil => exact List.forall_mem_nil _
  | plain c hc _ ih => exact List.forall_mem_cons.mpr ⟨.inr hc, ih⟩
  | escaped b high low hhigh hlow _ ih =>
    refine List.forall_mem_cons.mpr ⟨.inl rfl, List.forall_mem_cons.mpr ⟨?_, ?_⟩⟩
    · exact .inr (isPlain_of_hexValue? hhigh)
    · exact List.forall_mem_cons.mpr ⟨.inr (isPlain_of_hexValue? hlow), ih⟩

theorem Encodes.unescape_eq (h : Encodes bytes text) : unescape text = bytes := by
  induction h with
  | nil => rfl
  | plain c hc _ ih =>
    have hpercent : c ≠ '%' := by
      rintro rfl
      cases hc
    rw [unescape, ih]
    intro _ _ _ heq
    exact absurd heq hpercent
  | escaped b high low hhigh hlow _ ih =>
    rw [unescape, hhigh, hlow, ih]
    dsimp only
    rw [Nat.div_add_mod', UInt8.ofNat_toNat]

/-! ### Reading -/

theorem unquote_of_ascii (h : ∀ c ∈ text, c.toNat < 0x80) :
    unquote text = Utf8.decodeLossy (unescape text) := by
  cases text with
  | nil =>
    rw [unquote, unescape, Utf8.decodeLossy]
  | cons c rest =>
    obtain ⟨hc, hrest⟩ := List.forall_mem_cons.mp h
    have hascii : ∀ d ∈ rest, Text.isAscii d = true := fun d hd => decide_eq_true (hrest d hd)
    have htake : rest.takeWhile Text.isAscii = rest := List.takeWhile_eq_self_iff.mpr hascii
    have hdrop : rest.dropWhile Text.isAscii = [] := List.dropWhile_eq_nil_iff.mpr hascii
    have hfirst : Text.isAscii c = true := decide_eq_true hc
    rw [unquote, if_pos hfirst, htake, hdrop, unquote, List.append_nil]

section Written

variable (h : ∀ c ∈ text, c = '%' ∨ isPlain c = true)
include h

theorem toNat_of_written : ∀ c ∈ text, 0x20 < c.toNat ∧ c.toNat < 0x80 := by
  intro c hc
  rcases h c hc with rfl | hplain
  · decide
  · exact toNat_of_isPlain hplain

/-- Marks with a meaning of their own do not occur. -/
theorem ne_of_written {mark : Char} (hmark : ¬(mark = '%' ∨ isPlain mark = true)) :
    ∀ c ∈ text, c ≠ mark := by
  rintro c hc rfl
  exact hmark (h c hc)

theorem cleaned_file : cleaned ("file://".toList ++ text) = "file://".toList ++ text := by
  have hkept : text.filter (fun c => c ≠ '\t' ∧ c ≠ '\r' ∧ c ≠ '\n') = text := by
    rw [List.filter_eq_self]
    intro c hc
    exact decide_eq_true ⟨ne_of_written h (by decide) c hc, ne_of_written h (by decide) c hc,
      ne_of_written h (by decide) c hc⟩
  rw [cleaned]
  change List.filter _ ("file://".toList ++ text) = _
  rw [List.filter_append, hkept]
  rfl

theorem contains_written {mark : Char} (hmark : ¬(mark = '%' ∨ isPlain mark = true)) :
    text.contains mark = false := by
  have hmem : mark ∉ text := fun hmem => ne_of_written h hmark mark hmem rfl
  simpa using hmem

theorem check_written : Authority.check text = .ok () := by
  have hhides : text.any Authority.hidesSeparator = false := by
    rw [List.any_eq_false]
    intro c hc hhides
    have hascii := (toNat_of_written h c hc).2
    simp only [Authority.hidesSeparator, List.contains_eq_mem, decide_eq_true_eq, List.mem_cons,
      List.not_mem_nil, or_false] at hhides
    omega
  have hopen : text.contains '[' = false := contains_written h (by decide)
  have hclose : text.contains ']' = false := contains_written h (by decide)
  simp only [Authority.check, hopen, hclose, hhides]
  rfl

/-- Only a slash ends the authority. -/
theorem splitAuthority_written :
    splitAuthority ('/' :: '/' :: text) = (text.takeWhile (· ≠ '/'), text.dropWhile (· ≠ '/')) := by
  rw [splitAuthority, Prod.mk.injEq]
  induction text with
  | nil => exact ⟨rfl, rfl⟩
  | cons c rest ih =>
    obtain ⟨htake, hdrop⟩ := ih fun d hd => h d (List.mem_cons_of_mem c hd)
    have hquery : c ≠ '?' := ne_of_written h (by decide) c (List.mem_cons_self ..)
    have hfragment : c ≠ '#' := ne_of_written h (by decide) c (List.mem_cons_self ..)
    have hinside : (c ≠ '/' ∧ c ≠ '?' ∧ c ≠ '#') ↔ c ≠ '/' := by simp [hquery, hfragment]
    simp only [List.takeWhile_cons, List.dropWhile_cons, hinside, htake, hdrop, and_self]

theorem split_file :
    split ("file://".toList ++ text) =
      .ok ⟨"file".toList, text.takeWhile (· ≠ '/'), text.dropWhile (· ≠ '/')⟩ := by
  have hscheme : splitScheme ("file://".toList ++ text) = ("file".toList, '/' :: '/' :: text) := rfl
  have hcheck : Authority.check (text.takeWhile (· ≠ '/')) = .ok () :=
    check_written fun c hc => h c (List.takeWhile_subset _ hc)
  have hpath : (text.dropWhile (· ≠ '/')).takeWhile (fun c => c ≠ '#' ∧ c ≠ '?') =
      text.dropWhile (· ≠ '/') := by
    rw [List.takeWhile_eq_self_iff]
    intro c hc
    have hmem := List.dropWhile_subset _ hc
    exact decide_eq_true ⟨ne_of_written h (by decide) c hmem, ne_of_written h (by decide) c hmem⟩
  simp only [split, cleaned_file h, hscheme, splitAuthority_written h, hcheck, hpath]

/-- What a file URI names: what comes from the first slash on, with its escapes decoded. -/
theorem toPath_file :
    toPath ("file://" ++ String.ofList text) =
      .ok (Path.normal
        (String.ofList (Utf8.decodeLossy (unescape (text.dropWhile (· ≠ '/')))))) := by
  have hascii : ∀ c ∈ text.dropWhile (· ≠ '/'), c.toNat < 0x80 := fun c hc =>
    (toNat_of_written h c (List.dropWhile_subset _ hc)).2
  have huri : ("file://" ++ String.ofList text).toList = "file://".toList ++ text := by simp
  rw [toPath, huri, split_file h, ← unquote_of_ascii hascii]
  rfl

end Written

/-- From the first slash on, a text encodes an end of the bytes. These are all of them if
the text begins with the slash. -/
theorem Encodes.exists_behind (h : Encodes bytes text) :
    ∃ l r, bytes = l ++ r ∧ Encodes r (text.dropWhile (· ≠ '/')) ∧
      (l = [] ↔ ∀ c, text.head? = some c → c = '/') := by
  induction h with
  | nil => exact ⟨[], [], rfl, .nil, by simp⟩
  | @plain bytes text c hc h ih =>
    by_cases hslash : c = '/'
    · subst hslash
      exact ⟨[], _, rfl, .plain _ hc h, by simp⟩
    · obtain ⟨l, r, rfl, hr, -⟩ := ih
      refine ⟨UInt8.ofNat c.toNat :: l, r, rfl, ?_, by simp [hslash]⟩
      rwa [List.dropWhile_cons_of_pos (by simpa using hslash)]
  | @escaped bytes text b high low hhigh hlow h ih =>
    have hdigit : ∀ {c : Char} {n : Nat}, Text.hexValue? c = some n → c ≠ '/' := by
      rintro c n hc rfl
      cases hc
    obtain ⟨l, r, rfl, hr, -⟩ := ih
    refine ⟨b :: l, r, rfl, ?_, by simp⟩
    rwa [List.dropWhile_cons_of_pos (by decide),
      List.dropWhile_cons_of_pos (by simpa using hdigit hhigh),
      List.dropWhile_cons_of_pos (by simpa using hdigit hlow)]

theorem head?_behind (text : List Char) :
    ∀ c, (text.dropWhile (· ≠ '/')).head? = some c → c = '/' := by
  intro c hc
  have hfirst := List.head?_dropWhile_not (fun c : Char => decide (c ≠ '/')) text
  rw [hc] at hfirst
  simpa using hfirst

theorem Encodes.head?_eq (h : Encodes bytes text) (hslash : ∀ c, text.head? = some c → c = '/') :
    ∀ b, bytes.head? = some b → b = UInt8.ofNat '/'.toNat := by
  intro b hb
  cases h with
  | nil => cases hb
  | plain c _ _ =>
    obtain rfl := hslash c rfl
    exact (Option.some.inj hb).symm
  | escaped => exact absurd (hslash '%' rfl) (by decide)

/-- Characters whose bytes start with a slash start with one. -/
theorem head?_of_encodeChars {chars : List Char}
    (h : ∀ b, (encodeChars chars).head? = some b → b = UInt8.ofNat '/'.toNat) :
    ∀ c, chars.head? = some c → c = '/' := by
  intro c hc
  obtain ⟨rest, rfl⟩ := List.head?_eq_some_iff.mp hc
  obtain ⟨b, more, hbytes, -⟩ := Utf8.encodeChar_tail c
  have hb : b = UInt8.ofNat '/'.toNat := by
    apply h
    rw [Utf8.encodeChars_cons, hbytes]
    rfl
  apply Utf8.mem_encodeChar_ascii (by decide)
  rw [hbytes, hb]
  exact List.mem_cons_self ..

/-- The rest of a path from a slash on is in normal form, unless nothing is left. -/
theorem normalChars_rest {p : Path.Absolute} {front rest : List Char}
    (h : p.chars = front ++ rest) (hrest : ∀ c, rest.head? = some c → c = '/') :
    Path.normalChars rest = if rest = [] then ['.'] else rest := by
  cases rest with
  | nil => rfl
  | cons c rest =>
    obtain rfl := hrest c rfl
    obtain ⟨q, hq⟩ := Path.Absolute.exists_of_append h
    rw [if_neg (List.cons_ne_nil _ _), ← hq, q.normalChars_chars]

/-- A file URI names what it encodes from its first slash on. -/
theorem exists_rest {p : Path.Absolute} (h : Encodes (Utf8.encode p.path) text) :
    ∃ front rest, p.chars = front ++ rest ∧
      Encodes (encodeChars rest) (text.dropWhile (· ≠ '/')) ∧
      (front = [] ↔ text.head? = some '/') ∧
      toPath ("file://" ++ String.ofList text) =
        .ok (String.ofList (if rest = [] then ['.'] else rest)) := by
  rw [Path.Absolute.path, Utf8.encode_ofList] at h
  obtain ⟨l, r, hbytes, hr, hl⟩ := h.exists_behind
  have hhead := hr.head?_eq (head?_behind text)
  obtain ⟨front, rest, hsplit, rfl, rfl⟩ := Lexeme.exists_split_of_head hbytes fun b hb => by
    rw [hhead b hb]
    exact Lexeme.not_isContinuation_of_lt (by decide)
  refine ⟨front, rest, hsplit, hr, ?_, ?_⟩
  · rw [← Utf8.encodeChars_eq_nil_iff, hl]
    cases text with
    | nil => exact absurd (Utf8.encodeChars_eq_nil_iff.mp h.unescape_eq.symm) (List.cons_ne_nil _ _)
    | cons c text => simp
  · rw [toPath_file h.forall_mem, hr.unescape_eq, Utf8.decodeLossy_encodeChars, Path.normal,
      String.toList_ofList, normalChars_rest hsplit (head?_of_encodeChars hhead)]

end Uri

/-- A file is read where no document is open. -/
theorem Job.run_locate_of_closed {w : Workspace} {u path : String}
    (hclosed : w.find? (.str u) = none) (hpath : Uri.toPath u = .ok path)
    (hnul : '\x00' ∉ path.toList) (disk : Disk) (schedule : Schedule) (pauses : Nat) :
    (locate (.str u)).run disk schedule pauses w =
      ⟨[], w, Document.ofFile (.str u) (disk path)⟩ := by
  have hhas : w.has (.str u) = .ok false := by
    rw [Workspace.has_str, hclosed, Option.isSome_none]
  have hpathOf : Uri.pathOf (.str u) = .ok path := hpath
  have hplain : ¬path.toList.contains '\x00' = true := by
    rwa [List.contains_iff_mem]
  simp only [locate, run, hhas, hpathOf, if_neg hplain]
  cases Document.ofFile (.str u) (disk path) <;> rfl

/-- A file URI that encodes an absolute path names the end of this path that begins with the
first slash in the encoding, and so the path itself if and only if the slash at the
front is not escaped. Then this file is read where the URI is not open. -/
theorem Uri.toPath_of_encodes (p : Path.Absolute) {text : List Char}
    (h : Encodes (Utf8.encode p.path) text) :
    let uri := "file://" ++ String.ofList text
    (∃ rest, rest <:+ p.chars ∧ Encodes (encodeChars rest) (text.dropWhile (· ≠ '/')) ∧
        toPath uri = .ok (String.ofList (if rest = [] then ['.'] else rest))) ∧
      (toPath uri = .ok p.path ↔ text.head? = some '/') ∧
      (text.head? = some '/' → ∀ w : Workspace, w.find? (.str uri) = none →
        ∀ disk schedule pauses,
          (Job.locate (.str uri)).run disk schedule pauses w =
            ⟨[], w, Document.ofFile (.str uri) (disk p.path)⟩) := by
  intro uri
  obtain ⟨front, rest, hsplit, hrest, hfront, hpath⟩ := exists_rest h
  have hnamed : toPath uri = .ok p.path ↔ text.head? = some '/' := by
    rw [hpath, Path.Absolute.path, Except.ok.injEq, String.ofList_inj, p.rest_eq_iff hsplit, hfront]
  have hnul : '\x00' ∉ p.path.toList := by
    rw [Path.Absolute.path, String.toList_ofList]
    exact p.nul_not_mem_chars
  exact ⟨⟨rest, ⟨front, hsplit.symm⟩, hrest, hpath⟩, hnamed, fun hhead w hclosed =>
    Job.run_locate_of_closed hclosed (hnamed.mpr hhead) hnul⟩

/-- A blank, a mark and a character of two bytes, with digits in both cases. -/
theorem Uri.toPath_of_encodes_mixed :
    let p : Path.Absolute :=
      ⟨["a b".toList, "..".toList, "é?".toList], by decide, by decide, by decide, by decide⟩
    let uri := "file:///a%20b/../%c3%A9%3f"
    let w : Workspace := ⟨[⟨.str "file:///a", .str "", .null, .int 1⟩]⟩
    Encodes (Utf8.encode p.path) "/a%20b/../%c3%A9%3f".toList ∧ toPath uri = .ok "/a b/../é?" ∧
      ∀ disk schedule pauses,
        (Job.locate (.str uri)).run disk schedule pauses w =
          ⟨[], w, Document.ofFile (.str uri) (disk "/a b/../é?")⟩ := by
  intro p uri w
  have hbytes : Utf8.encode p.path =
      [0x2f, 0x61, 0x20, 0x62, 0x2f, 0x2e, 0x2e, 0x2f, 0xc3, 0xa9, 0x3f] := by decide +kernel
  have htext : Encodes (Utf8.encode p.path) "/a%20b/../%c3%A9%3f".toList := by
    rw [hbytes]
    exact .plain '/' rfl <| .plain 'a' rfl <| .escaped 0x20 '2' '0' rfl rfl <| .plain 'b' rfl <|
      .plain '/' rfl <| .plain '.' rfl <| .plain '.' rfl <| .plain '/' rfl <|
      .escaped 0xc3 'c' '3' rfl rfl <| .escaped 0xa9 'A' '9' rfl rfl <|
      .escaped 0x3f '3' 'f' rfl rfl .nil
  obtain ⟨-, hnamed, hread⟩ := toPath_of_encodes p htext
  exact ⟨htext, hnamed.mpr rfl, hread rfl w rfl⟩

/-- An escaped slash at the front: the whole path is taken for a host. -/
theorem Uri.toPath_escapedFront :
    let p : Path.Absolute := ⟨["a".toList], by decide, by decide, by decide, by decide⟩
    p.path = "/a" ∧ Encodes (Utf8.encode p.path) "%2Fa".toList ∧
      toPath "file://%2Fa" = .ok "." := by
  intro p
  have hbytes : Utf8.encode p.path = [0x2f, 0x61] := by decide +kernel
  have htext : Encodes (Utf8.encode p.path) "%2Fa".toList := by
    rw [hbytes]
    exact .escaped 0x2f '2' 'F' rfl rfl <| .plain 'a' rfl .nil
  have hrest : "%2Fa".toList.dropWhile (· ≠ '/') = [] := rfl
  have hpath := toPath_file htext.forall_mem
  rw [hrest, unescape, Utf8.decodeLossy] at hpath
  exact ⟨rfl, htext, hpath⟩

end RenameServer
