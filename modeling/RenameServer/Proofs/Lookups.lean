import RenameServer.Lookup
import RenameServer.Proofs.Positions

/-!
Queries answer what the line index says, and none fails. Every offset of a text
is between the CR and the LF of a line end, or it is at the start of a character
or inside it; then the line around it is made of whole characters, and all that a
query looks up is there. The tables that are kept are those that would be made
again, so a query does not depend on the queries before it.
-/
namespace RenameServer

open Utf8 (Bytes encodeChars)
open Position

namespace Position

/-- Where an offset can be in a text. -/
theorem exists_place (text : List Char) {o : Nat} (ho : o ≤ byteLength text) :
    (∃ q y, text = q ++ '\r' :: '\n' :: y ∧ o = byteLength q + 1) ∨
      ∃ p x k, text = p ++ x ∧ NoSplit p x ∧ Inside k x ∧ o = byteLength p + k := by
  induction text generalizing o with
  | nil =>
    obtain rfl := Nat.le_zero.mp ho
    exact .inr ⟨[], [], 0, rfl, noSplit_nil _, rfl, rfl⟩
  | cons c rest ih =>
    rw [byteLength_cons] at ho
    by_cases hfirst : o < c.utf8Size
    · exact .inr ⟨[], c :: rest, o, rfl, noSplit_nil _, hfirst, (Nat.zero_add o).symm⟩
    · have hsize : c.utf8Size + (o - c.utf8Size) = o := by omega
      rcases ih (o := o - c.utf8Size) (by omega) with
        ⟨q, y, rfl, ho'⟩ | ⟨p, x, k, rfl, hsplit, hk, ho'⟩
      · exact .inl ⟨c :: q, y, rfl, by rw [byteLength_cons, Nat.add_assoc, ← ho', hsize]⟩
      · by_cases hcrlf : p = [] ∧ c = '\r' ∧ x.head? = some '\n'
        · obtain ⟨rfl, rfl, hx⟩ := hcrlf
          obtain ⟨y, rfl⟩ := List.head?_eq_some_iff.mp hx
          have hfeed : k < 1 := hk
          have hreturn : '\r'.utf8Size = 1 := rfl
          refine .inl ⟨[], y, rfl, ?_⟩
          rw [byteLength_nil] at ho' ⊢
          omega
        · refine .inr ⟨c :: p, x, k, rfl, ?_, hk, by
            rw [byteLength_cons, Nat.add_assoc, ← ho', hsize]⟩
          intro hlast hhead
          cases p with
          | nil => exact hcrlf ⟨rfl, Option.some.inj hlast, hhead⟩
          | cons d p => exact hsplit (by rwa [List.getLast?_cons_cons] at hlast) hhead

end Position

namespace LineIndex

/-- Between CR and LF the line has ended already. -/
theorem take_two_crlf (q y : List Char) :
    ((encodeChars (q ++ '\r' :: '\n' :: y)).drop (byteLength q)).take 2 = [0x0d, 0x0a] := by
  rw [Utf8.encodeChars_append, byteLength_eq, List.drop_left, encodeChars_return, encodeChars_feed]
  rfl

theorem noSplit_return (q y : List Char) : NoSplit q ('\r' :: '\n' :: y) :=
  fun _ h => absurd (Option.some.inj h) (by decide)

/-- What a query between CR and LF finds: the line that ends there, and where it starts. -/
theorem exists_line_crlf (q y : List Char) :
    let index := ofText (String.ofList (q ++ '\r' :: '\n' :: y))
    ∃ q', byteLength q' ≤ byteLength q ∧
      (index.starts.filter fun s => s ≤ byteLength q + 1).length = (spot q).1 + 1 ∧
      index.starts[(spot q).1]? = some (byteLength q') := by
  intro index
  obtain ⟨q', r, l, rfl, -, -, -, hstart, -⟩ :=
    exists_line (noSplit_return q y) (inside_zero _)
  refine ⟨q', by rw [byteLength_append]; omega, ?_, hstart⟩
  rw [starts_ofText (noSplit_return (q' ++ r) y),
    length_filter_starts (Nat.le_add_right ..) ?_, length_starts]
  intro s hs
  rw [Position.starts] at hs
  rcases List.mem_cons.mp hs with rfl | hs
  · omega
  · have := mem_starts hs
    omega

theorem locate_crlf (q y : List Char) :
    (ofText (String.ofList (q ++ '\r' :: '\n' :: y))).locate (byteLength q + 1) =
      ⟨(spot q).1 + 1, 0⟩ := by
  obtain ⟨q', hq', hcount, hstart⟩ := exists_line_crlf q y
  rw [locate, hcount, Nat.add_sub_cancel, List.getD_eq_getElem?_getD, hstart, Option.getD_some,
    bytes_ofText, Nat.add_sub_cancel, if_pos ⟨by omega, take_two_crlf q y⟩]

end LineIndex

namespace Table

theorem entry_of_getElem? {table : List Nat} {i n : Nat} (h : table[i]? = some n) :
    entry table i = .ok n := by
  rw [entry, h]

theorem lastUpTo_eq_ok {table : List Nat} {n i : Nat} :
    lastUpTo table n = .ok i ↔ (table.filter fun entry => entry ≤ n).length = i + 1 := by
  rw [lastUpTo]
  cases (table.filter fun entry => entry ≤ n).length with
  | zero => simp
  | succ j => simp

end Table

namespace ColumnTable

theorem le_of_mem_starts {start column : Nat} {chars : List Char} {s : Nat}
    (h : s ∈ (ofChars start column chars).starts) : start ≤ s := by
  induction chars generalizing start column with
  | nil => exact Nat.le_of_eq (List.mem_singleton.mp h).symm
  | cons c rest ih =>
    rcases List.mem_cons.mp h with rfl | h
    · exact Nat.le_refl _
    · exact Nat.le_trans (Nat.le_add_right ..) (ih h)

variable {start n : Nat} {more : ColumnTable}

/-- A byte before all further entries. -/
theorem column_first (column : Nat) (hn : start ≤ n) (hmore : ∀ s ∈ more.starts, n < s) :
    ColumnTable.column ⟨start :: more.starts, column :: more.columns⟩ n = .ok column := by
  have hnone : (more.starts.filter fun s => s ≤ n) = [] := by
    refine List.filter_eq_nil_iff.mpr fun s hs => ?_
    have := hmore s hs
    simp only [decide_eq_true_eq]
    omega
  have hlast : Table.lastUpTo (start :: more.starts) n = .ok 0 := by
    rw [Table.lastUpTo_eq_ok, List.filter_cons_of_pos (by simpa using hn), hnone]
    rfl
  rw [ColumnTable.column, hlast]
  rfl

/-- A byte that the further entries have a column for. -/
theorem column_further (column : Nat) (hn : start ≤ n) {c : Nat} (hmore : more.column n = .ok c) :
    ColumnTable.column ⟨start :: more.starts, column :: more.columns⟩ n = .ok c := by
  rw [ColumnTable.column] at hmore
  cases hi : Table.lastUpTo more.starts n with
  | error fault =>
    rw [hi] at hmore
    cases hmore
  | ok i =>
    rw [hi] at hmore
    have hlast : Table.lastUpTo (start :: more.starts) n = .ok (i + 1) := by
      rw [Table.lastUpTo_eq_ok] at hi ⊢
      rw [List.filter_cons_of_pos (by simpa using hn), List.length_cons, hi]
    rw [ColumnTable.column, hlast]
    exact hmore

/-- A table has the column of every byte. -/
theorem column_ofChars (start column : Nat) (chars : List Char) (n : Nat) :
    (ofChars start column chars).column (start + n) =
      .ok (column + LineIndex.columnAt n chars) := by
  induction chars generalizing start column n with
  | nil => exact @column_first start _ ⟨[], []⟩ column (Nat.le_add_right ..) (List.forall_mem_nil _)
  | cons c rest ih =>
    rw [LineIndex.columnAt]
    split_ifs with hn
    · refine column_first column (Nat.le_add_right ..) fun s hs => ?_
      have := le_of_mem_starts hs
      omega
    · have hrest := ih (start + c.utf8Size) (column + width c) (n - c.utf8Size)
      rw [Nat.add_assoc start, Nat.add_sub_of_le (Nat.le_of_not_lt hn),
        Nat.add_assoc column] at hrest
      exact column_further column (Nat.le_add_right ..) hrest

/-- On a line of ASCII a column is a number of bytes. -/
theorem columnAt_ascii {chars : List Char} (h : ∀ b ∈ encodeChars chars, b < 0x80) {n : Nat}
    (hn : n ≤ byteLength chars) : LineIndex.columnAt n chars = n := by
  induction chars generalizing n with
  | nil => exact (Nat.le_zero.mp hn).symm
  | cons c rest ih =>
    have hc : c.toNat < 0x80 := by
      refine Nat.not_le.mp fun hc => ?_
      obtain ⟨b, tail, hchar, hb, -⟩ := Utf8.encodeChar_of_not_ascii hc
      have hlt := h b (by rw [Utf8.encodeChars_cons, hchar]; exact List.mem_cons_self ..)
      exact absurd (UInt8.lt_of_le_of_lt hb hlt) (by decide)
    have hsize : c.utf8Size = 1 := by
      rw [← String.length_utf8EncodeChar, Utf8.encodeChar_ascii hc]
      rfl
    have hwidth : width c = 1 := by
      rw [width, if_neg (by omega)]
    rw [byteLength_cons, hsize] at hn
    rw [LineIndex.columnAt, hsize, hwidth]
    split_ifs with hfirst
    · omega
    · rw [ih (fun b hb => h b (List.mem_append_right _ hb)) (by omega)]
      omega

/-- The table of a line of characters, and what it says. -/
theorem ofLine?_encodeChars (chars : List Char) :
    (ofLine? (encodeChars chars) = .ok none ∧ ∀ b ∈ encodeChars chars, b < 0x80) ∨
      ofLine? (encodeChars chars) = .ok (some (ofChars 0 0 chars)) := by
  rw [ofLine?, Utf8.decode_encodeChars]
  split_ifs with hascii
  · exact .inl ⟨rfl, by simpa using hascii⟩
  · exact .inr (by simp only [String.toList_ofList])

end ColumnTable

namespace Lookup

open LineIndex (ofText)

/-- A lookup in a text whose tables are those of their lines. -/
structure Sound (text : String) (lookup : Lookup) : Prop where
  index_eq : lookup.index = .ofText text
  tables : ∀ {line table}, lookup.tables.lookup line = some table →
    ∃ start, lookup.index.starts[line]? = some start ∧
      ColumnTable.ofLine? (lookup.index.lineBytes line start) = .ok table

theorem sound_ofText (text : String) : (Lookup.ofText text).Sound text :=
  ⟨rfl, fun h => by cases h⟩

variable {text : String} {lookup : Lookup} {line start : Nat}

/-- A table that is kept is the one that would be made, and one that is made is kept. -/
theorem Sound.table (h : lookup.Sound text)
    (hstart : (LineIndex.ofText text).starts[line]? = some start) {table : Option ColumnTable}
    (htable : ColumnTable.ofLine? ((LineIndex.ofText text).lineBytes line start) = .ok table) :
    ∃ next, lookup.table line = .ok (table, next) ∧ next.Sound text := by
  rw [← h.index_eq] at hstart htable
  cases hkept : lookup.tables.lookup line with
  | some kept =>
    obtain ⟨start', hstart', hkept'⟩ := h.tables hkept
    obtain rfl := Option.some.inj (hstart.symm.trans hstart')
    obtain rfl := Except.ok.inj (htable.symm.trans hkept')
    exact ⟨lookup, by rw [Lookup.table, hkept], h⟩
  | none =>
    refine ⟨{ lookup with tables := (line, table) :: lookup.tables }, ?_, h.index_eq, ?_⟩
    · rw [Lookup.table, hkept, Table.entry_of_getElem? hstart]
      simp only [bind, Except.bind, htable]
      rfl
    · intro line' table' hlookup
      rw [List.lookup_cons] at hlookup
      by_cases hline : line' = line
      · subst hline
        simp only [beq_self_eq_true] at hlookup
        obtain rfl := Option.some.inj hlookup
        exact ⟨start, hstart, htable⟩
      · simp only [beq_eq_false_iff_ne.mpr hline] at hlookup
        exact h.tables hlookup

/-- The column of a byte of a line that is made of characters. -/
theorem Sound.column (h : lookup.Sound text)
    (hstart : (LineIndex.ofText text).starts[line]? = some start) {chars : List Char}
    (hbytes : (LineIndex.ofText text).lineBytes line start = encodeChars chars) {n : Nat}
    (hn : n ≤ byteLength chars) :
    ∃ next, lookup.column line n = .ok (LineIndex.columnAt n chars, next) ∧ next.Sound text := by
  rcases ColumnTable.ofLine?_encodeChars chars with ⟨htable, hascii⟩ | htable
  · obtain ⟨next, hnext, hsound⟩ := h.table hstart (hbytes ▸ htable)
    refine ⟨next, ?_, hsound⟩
    rw [Lookup.column, hnext, ColumnTable.columnAt_ascii hascii hn]
    rfl
  · obtain ⟨next, hnext, hsound⟩ := h.table hstart (hbytes ▸ htable)
    have hcolumn := ColumnTable.column_ofChars 0 0 chars n
    rw [Nat.zero_add, Nat.zero_add] at hcolumn
    refine ⟨next, ?_, hsound⟩
    rw [Lookup.column, hnext]
    simp only [bind, Except.bind, hcolumn]
    rfl

/-- The position of an offset within the text. -/
theorem Sound.locate (h : lookup.Sound text) {o : Nat}
    (ho : o ≤ (LineIndex.ofText text).bytes.length) :
    ∃ next, lookup.locate o = .ok ((LineIndex.ofText text).locate o, next) ∧
      next.Sound text := by
  obtain ⟨chars, rfl⟩ : ∃ chars, text = String.ofList chars := ⟨text.toList, by simp⟩
  rw [LineIndex.bytes_ofText, ← byteLength_eq] at ho
  rw [Lookup.locate, h.index_eq]
  rcases exists_place chars ho with ⟨q, y, rfl, rfl⟩ | ⟨p, x, k, rfl, hsplit, hk, rfl⟩
  · obtain ⟨q', hq', hcount, hstart⟩ := LineIndex.exists_line_crlf q y
    refine ⟨lookup, ?_, h⟩
    have hcrlf : byteLength q' < byteLength q + 1 ∧
        ((encodeChars (q ++ '\r' :: '\n' :: y)).drop (byteLength q + 1 - 1)).take 2 =
          [0x0d, 0x0a] :=
      ⟨by omega, LineIndex.take_two_crlf q y⟩
    rw [LineIndex.locate_crlf, LineIndex.bytes_ofText]
    simp only [bind, Except.bind, Table.lastUpTo_eq_ok.mpr hcount, Table.entry_of_getElem? hstart,
      if_pos hcrlf]
    rfl
  · obtain ⟨q, r, l, hp, hl, hcolumn, hcount, hstart, hbytes⟩ := LineIndex.exists_line hsplit hk
    have hcrlf : ¬(byteLength q < byteLength p + k ∧
        ((encodeChars (p ++ x)).drop (byteLength p + k - 1)).take 2 = [0x0d, 0x0a]) := by
      rintro ⟨hlt, htake⟩
      exact LineIndex.take_two_ne_crlf hsplit hk (Nat.zero_lt_of_lt hlt) htake
    have hoffset : byteLength p + k - byteLength q = byteLength r + k := by
      rw [hp, byteLength_append]
      omega
    obtain ⟨next, hnext, hsound⟩ := h.column hstart hbytes (n := byteLength r + k)
      (by rw [byteLength_append]; exact Nat.add_le_add_left hl.le_byteLength _)
    refine ⟨next, ?_, hsound⟩
    rw [LineIndex.locate_inside hsplit hk, LineIndex.bytes_ofText]
    simp only [bind, Except.bind, Table.lastUpTo_eq_ok.mpr hcount, Table.entry_of_getElem? hstart,
      if_neg hcrlf, hoffset, hnext, columnAt_units r hl, hcolumn]
    rfl

/-- No query for an offset fails. Past the end it is a query for the end. -/
theorem Sound.position (h : lookup.Sound text) (o : Nat) :
    ∃ next, lookup.position o =
        .ok ((LineIndex.ofText text).locate (min o (LineIndex.ofText text).bytes.length), next) ∧
      next.Sound text := by
  obtain ⟨next, hnext, hsound⟩ := h.locate (Nat.min_le_right o _)
  refine ⟨next, ?_, hsound⟩
  rw [Lookup.position, if_neg (by omega), h.index_eq, Int.toNat_natCast, hnext]

theorem Sound.range (h : lookup.Sound text) (r : ByteRange) :
    ∃ next, lookup.range r = .ok ((LineIndex.ofText text).range r, next) ∧ next.Sound text := by
  obtain ⟨next, hstart, hnext⟩ := h.position r.start
  obtain ⟨last, hstop, hlast⟩ := hnext.position r.stop
  refine ⟨last, ?_, hlast⟩
  simp only [Lookup.range, hstart, bind, Except.bind, hstop]
  rfl

/-- What an edit is converted to depends on the text only, and it is always converted. -/
theorem Sound.edit (h : lookup.Sound text) (e : TextEdit) :
    ∃ next, lookup.edit e = .ok ((LineIndex.ofText text).edit e, next) ∧ next.Sound text := by
  obtain ⟨next, hrange, hnext⟩ := h.range e.range
  refine ⟨next, ?_, hnext⟩
  simp only [Lookup.edit, hrange, bind, Except.bind]
  rfl

end Lookup

/-- Every offset has a position. -/
theorem Position.ofOffset_eq (o : Nat) (text : String) :
    ofOffset o text =
      .ok ((LineIndex.ofText text).locate (min o (LineIndex.ofText text).bytes.length)) := by
  obtain ⟨next, hposition, -⟩ := (Lookup.sound_ofText text).position o
  rw [ofOffset, hposition]
  rfl

theorem PositionRange.ofBytes_eq (r : ByteRange) (text : String) :
    ofBytes r text = .ok ((LineIndex.ofText text).range r) := by
  obtain ⟨next, hrange, -⟩ := (Lookup.sound_ofText text).range r
  rw [ofBytes, hrange]
  rfl

end RenameServer
