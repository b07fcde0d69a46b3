import Mathlib
import KirbLaSnoop.Lib.Chunks
import KirbLaSnoop.Lib.Text
import KirbLaSnoop.Hexdump
import KirbLaSnoop.Profile.Hex

/-!
# Reading a dump

Everything in a row of a dump is at a fixed column, whatever the gutter shows:
the offset, each of the sixteen cells and the gutter itself are read off by
column, and the rows give back the bytes that the dump shows.
-/

namespace KirbLaSnoop

namespace Hexdump

/-! ## The columns of a row -/

def offsetText (width : ℕ) (line : List Char) : List Char := (line.drop width).take 8

def cellText (width : ℕ) (line : List Char) (i : ℕ) : List Char :=
  (line.drop (width + 10 + (3 * i + if i < 8 then 0 else 1))).take 3

def gutterText (width : ℕ) (line : List Char) : List Char := line.drop (width + 60)

def readHex (cs : List Char) : Option ℕ :=
  cs.foldlM (fun n c => (hexDigit c).map (16 * n + ·)) 0

def decodeCell : List Char → Option UInt8
  | [c, d, ' '] => (hexDigit c).bind fun hi => (hexDigit d).map fun lo => (16 * hi + lo).toUInt8
  | _ => none

def decodeRow (width : ℕ) (line : List Char) : List UInt8 :=
  (List.range 16).filterMap fun i => decodeCell (cellText width line i)

/-! ## The offset -/

theorem hexDigit_digitChar {n : ℕ} (h : n < 16) : hexDigit n.digitChar = some n := by
  have hall : ∀ n < 16, hexDigit n.digitChar = some n := by decide
  exact hall n h

theorem readHex_toDigits (n : ℕ) : readHex (Nat.toDigits 16 n) = some n := by
  induction n using Nat.strong_induction_on with
  | h n ih =>
      rw [Nat.toDigits_eq_if (by decide)]
      split_ifs with hn
      · simp [readHex, hexDigit_digitChar hn]
      · have hfront := ih (n / 16) (by omega)
        have hlast := hexDigit_digitChar (Nat.mod_lt n (by decide : 0 < 16))
        unfold readHex at hfront ⊢
        simp [hfront, hlast, Nat.div_add_mod]

theorem readHex_zeros (m : ℕ) (cs : List Char) :
    readHex (List.replicate m '0' ++ cs) = readHex cs := by
  have hzero : hexDigit '0' = some 0 := by decide
  induction m with
  | zero => simp
  | succ m ih =>
      rw [List.replicate_succ, List.cons_append, ← ih]
      simp [readHex, hzero]

theorem readHex_hexOffset (n : ℕ) : readHex (hexOffset n) = some n := by
  rw [hexOffset, readHex_zeros, readHex_toDigits]

theorem length_hexOffset {n : ℕ} (h : n < 2 ^ 32) : (hexOffset n).length = 8 := by
  have hdigits : (Nat.toDigits 16 n).length ≤ 8 :=
    (Nat.length_toDigits_le_iff (by decide) (by decide)).mpr (by omega)
  rw [hexOffset, List.length_append, List.length_replicate]
  omega

theorem mem_toDigits {c : Char} {n : ℕ} (h : c ∈ Nat.toDigits 16 n) :
    ∃ d < 16, c = Nat.digitChar d := by
  induction n using Nat.strong_induction_on with
  | h n ih =>
      rw [Nat.toDigits_eq_if (by decide)] at h
      split_ifs at h with hn
      · exact ⟨n, hn, List.mem_singleton.mp h⟩
      · rcases List.mem_append.mp h with hfront | hlast
        · exact ih (n / 16) (by omega) hfront
        · exact ⟨n % 16, Nat.mod_lt n (by decide), List.mem_singleton.mp hlast⟩

theorem newline_not_mem_hexOffset (n : ℕ) : '\n' ∉ hexOffset n := by
  have hdigit : ∀ d < 16, '\n' ≠ Nat.digitChar d := by decide
  intro hmem
  rcases List.mem_append.mp hmem with hzero | hdigits
  · exact absurd (List.eq_of_mem_replicate hzero) (by decide)
  · obtain ⟨d, hd, heq⟩ := mem_toDigits hdigits
    exact hdigit d hd heq

/-! ## The cells -/

@[simp] theorem length_cell (b : Option UInt8) : (cell b).length = 3 := by
  cases b <;> rfl

theorem decodeCell_cell (b : Option UInt8) : decodeCell (cell b) = b := by
  cases b with
  | none => decide
  | some b =>
      have hhi := hexDigit_hexChar (n := b.toNat / 16) (by have := b.toNat_lt; omega)
      have hlo := hexDigit_hexChar (n := b.toNat % 16) (by omega)
      simp only [cell, hexByte, List.cons_append, List.nil_append, decodeCell, hhi, hlo,
        Option.bind_some, Option.map_some, toUInt8_halves]

theorem cells_eq (chunk : List UInt8) :
    cells chunk = ((List.range 8).flatMap fun i => cell chunk[i]?) ++
      ' ' :: (List.range 8).flatMap fun i => cell chunk[8 + i]? := by
  simp [cells, List.range_succ]

/-- A cell is found at its column, on both sides of the space in the middle. -/
theorem cells_at (chunk : List UInt8) {i : ℕ} (hi : i < 16) (rest : List Char) :
    ((cells chunk ++ rest).drop (3 * i + if i < 8 then 0 else 1)).take 3 = cell chunk[i]? := by
  rw [cells_eq, List.append_assoc]
  split_ifs with hfirst
  · exact Chunks.take_drop_cells (fun i => length_cell chunk[i]?) hfirst _
  · obtain ⟨j, rfl⟩ := Nat.exists_eq_add_of_le (not_lt.mp hfirst)
    have hlength := Chunks.length_cells (fun i => length_cell chunk[i]?) 8
    rw [show 3 * (8 + j) + 1 = 3 * 8 + (3 * j + 1) by omega, ← List.drop_drop,
      List.drop_left' hlength, List.cons_append, List.drop_succ_cons]
    exact Chunks.take_drop_cells (fun j => length_cell chunk[8 + j]?) (by omega) rest

theorem length_cells (chunk : List UInt8) : (cells chunk).length = 49 := by
  rw [cells_eq, List.length_append, List.length_cons,
    Chunks.length_cells (fun i => length_cell chunk[i]?),
    Chunks.length_cells (fun i => length_cell chunk[8 + i]?)]

theorem newline_not_mem_cell (b : Option UInt8) : '\n' ∉ cell b := by
  cases b with
  | none => decide
  | some b =>
      have hdigit : ∀ n < 16, '\n' ≠ hexChar n := by decide
      have hhi := hdigit (b.toNat / 16) (by have := b.toNat_lt; omega)
      have hlo := hdigit (b.toNat % 16) (by omega)
      simp [cell, hexByte, hhi, hlo]

theorem newline_not_mem_cells (chunk : List UInt8) : '\n' ∉ cells chunk := by
  simp [cells_eq, newline_not_mem_cell]

theorem newline_ne_gutterByte (b : UInt8) : '\n' ≠ gutterByte b := by
  have hall : ∀ n < 127, 0x20 ≤ n → '\n' ≠ Char.ofNat n := by decide
  unfold gutterByte
  split_ifs with hb
  · have hge : (0x20 : UInt8) ≤ b := by
      rcases hb with ⟨hb, -⟩ | rfl
      · exact UInt8.le_trans (by decide) hb
      · decide
    have hle : b ≤ (0x7e : UInt8) := by
      rcases hb with ⟨-, hb⟩ | rfl
      · exact hb
      · decide
    exact hall b.toNat (Nat.lt_succ_of_le (UInt8.le_iff_toNat_le.mp hle))
      (UInt8.le_iff_toNat_le.mp hge)
  · decide

/-! ## The rows -/

/-- A row without the end of its line. -/
def row (indent : String) (k : ℕ) (chunk : List UInt8) : List Char :=
  indent.toList ++ hexOffset (k * 16) ++ [' ', ' '] ++ cells chunk ++ [' ', '|'] ++
    chunk.map gutterByte ++ ['|']

theorem renderRow_eq (indent : String) (k : ℕ) (chunk : List UInt8) :
    renderRow indent k chunk = row indent k chunk ++ ['\n'] := by
  simp [renderRow, row]

theorem newline_not_mem_row {indent : String} (h : '\n' ∉ indent.toList) (k : ℕ)
    (chunk : List UInt8) : '\n' ∉ row indent k chunk := by
  have hgutter : '\n' ∉ chunk.map gutterByte := by
    rw [List.mem_map]
    rintro ⟨b, -, hb⟩
    exact newline_ne_gutterByte b hb.symm
  simp only [row, List.mem_append, not_or]
  exact ⟨⟨⟨⟨⟨⟨h, newline_not_mem_hexOffset _⟩, by decide⟩, newline_not_mem_cells chunk⟩,
    by decide⟩, hgutter⟩, by decide⟩

section Columns

variable {indent : String} {width k : ℕ} {chunk : List UInt8}

theorem offsetText_row (hwidth : indent.toList.length = width) (hk : k * 16 < 2 ^ 32) :
    offsetText width (row indent k chunk) = hexOffset (k * 16) := by
  simp only [offsetText, row, List.append_assoc, List.drop_left' hwidth]
  exact List.take_left' (length_hexOffset hk)

theorem drop_row (hwidth : indent.toList.length = width) (hk : k * 16 < 2 ^ 32) :
    (row indent k chunk).drop (width + 10) =
      cells chunk ++ ' ' :: '|' :: (chunk.map gutterByte ++ ['|']) := by
  have hfront : (indent.toList ++ hexOffset (k * 16) ++ [' ', ' ']).length = width + 10 := by
    simp [hwidth, length_hexOffset hk]
  have hrow : row indent k chunk = (indent.toList ++ hexOffset (k * 16) ++ [' ', ' ']) ++
      (cells chunk ++ ' ' :: '|' :: (chunk.map gutterByte ++ ['|'])) := by
    simp [row]
  rw [hrow, List.drop_left' hfront]

theorem cellText_row (hwidth : indent.toList.length = width) (hk : k * 16 < 2 ^ 32) {i : ℕ}
    (hi : i < 16) : cellText width (row indent k chunk) i = cell chunk[i]? := by
  rw [cellText, ← List.drop_drop, drop_row hwidth hk]
  exact cells_at chunk hi _

theorem gutterText_row (hwidth : indent.toList.length = width) (hk : k * 16 < 2 ^ 32) :
    gutterText width (row indent k chunk) = '|' :: (chunk.map gutterByte ++ ['|']) := by
  rw [gutterText, show width + 60 = width + 10 + (49 + 1) by omega, ← List.drop_drop,
    drop_row hwidth hk, ← List.drop_drop, List.drop_left' (length_cells chunk),
    List.drop_succ_cons, List.drop_zero]

theorem decodeRow_row (hwidth : indent.toList.length = width) (hk : k * 16 < 2 ^ 32)
    (hchunk : chunk.length ≤ 16) : decodeRow width (row indent k chunk) = chunk := by
  calc
    _ = (List.range 16).filterMap (fun i => chunk[i]?) := by
      refine List.filterMap_congr fun i hi => ?_
      rw [cellText_row hwidth hk (List.mem_range.mp hi), decodeCell_cell]
    _ = chunk := Chunks.filterMap_getElem? chunk hchunk

end Columns

/-- What the columns of a row of a dump hold: `shown` is all the bytes of the
dump, and the row is the one of index `k`. -/
structure IsRow (indent : String) (shown : List UInt8) (k : ℕ) (line : List Char) : Prop where
  indented : line.take indent.toList.length = indent.toList
  length_offset : (offsetText indent.toList.length line).length = 8
  offset : readHex (offsetText indent.toList.length line) = some (16 * k)
  decoded : ∀ i < 16, decodeCell (cellText indent.toList.length line i) = shown[16 * k + i]?
  blank : ∀ i < 16, shown.length ≤ 16 * k + i →
    cellText indent.toList.length line i = [' ', ' ', ' ']
  gutter : gutterText indent.toList.length line =
    '|' :: (((shown.drop (16 * k)).take 16).map gutterByte ++ ['|'])
  bytes : decodeRow indent.toList.length line = (shown.drop (16 * k)).take 16

theorem isRow_row {indent : String} {shown : List UInt8} {k : ℕ} (hk : k * 16 < 2 ^ 32) :
    IsRow indent shown k (row indent k ((shown.drop (16 * k)).take 16)) where
  indented := by
    simp only [row, List.append_assoc]
    exact List.take_left
  length_offset := by rw [offsetText_row rfl hk, length_hexOffset hk]
  offset := by rw [offsetText_row rfl hk, readHex_hexOffset, Nat.mul_comm]
  decoded := by
    intro i hi
    rw [cellText_row rfl hk hi, decodeCell_cell, List.getElem?_take_of_lt hi, List.getElem?_drop]
  blank := by
    intro i hi hend
    rw [cellText_row rfl hk hi, List.getElem?_take_of_lt hi, List.getElem?_drop,
      List.getElem?_eq_none hend, cell]
  gutter := gutterText_row rfl hk
  bytes := decodeRow_row rfl hk (List.length_take_le _ _)

/-! ## The dump -/

def limit (data : List UInt8) (max : ℕ) : ℕ :=
  if max = 0 then data.length else min data.length max

theorem limit_le (data : List UInt8) (max : ℕ) : limit data max ≤ data.length := by
  unfold limit
  split_ifs
  · exact le_rfl
  · exact min_le_left _ _

def rows (indent : String) (shown : List UInt8) : List (List Char) :=
  (Chunks.chunks 16 shown).zipIdx.map fun c => row indent c.2 c.1

theorem length_rows (indent : String) (shown : List UInt8) :
    (rows indent shown).length = (shown.length + 15) / 16 := by
  simp [rows]

theorem getElem_rows {indent : String} {shown : List UInt8} {k : ℕ}
    (hk : k < (rows indent shown).length) :
    (rows indent shown)[k] = row indent k ((shown.drop (16 * k)).take 16) := by
  simp [rows, Chunks.getElem_chunks]

theorem isRow_rows {indent : String} {shown : List UInt8} (h : shown.length < 2 ^ 32) {k : ℕ}
    (hk : k < (rows indent shown).length) : IsRow indent shown k (rows indent shown)[k] := by
  rw [getElem_rows hk]
  rw [length_rows] at hk
  exact isRow_row (by omega)

theorem flatMap_decodeRow_rows {indent : String} {shown : List UInt8}
    (h : shown.length < 2 ^ 32) :
    (rows indent shown).flatMap (decodeRow indent.toList.length) = shown := by
  have hrows : (rows indent shown).map (decodeRow indent.toList.length) =
      Chunks.chunks 16 shown := by
    refine List.ext_getElem (by simp [rows]) fun k hk hk' => ?_
    rw [List.getElem_map, (isRow_rows h _).bytes, Chunks.getElem_chunks]
  rw [List.flatMap_def, hrows, Chunks.flatten_chunks (by decide)]

theorem newline_not_mem_rows {indent : String} (h : '\n' ∉ indent.toList) (shown : List UInt8) :
    ∀ line ∈ rows indent shown, '\n' ∉ line := by
  intro line hline
  obtain ⟨c, -, rfl⟩ := List.mem_map.mp hline
  exact newline_not_mem_row h _ _

def moreLine (indent : String) (n : ℕ) : String :=
  indent ++ "... " ++ toString n ++ " more bytes"

theorem newline_not_mem_moreLine {indent : String} (h : '\n' ∉ indent.toList) (n : ℕ) :
    '\n' ∉ (moreLine indent n).toList := by
  have hdigits : '\n' ∉ Nat.toDigits 10 n := fun hmem =>
    absurd (Nat.isDigit_of_mem_toDigits (by decide) (by decide) hmem) (by decide)
  simp [moreLine, h, hdigits]

theorem render_eq (data : List UInt8) (max : ℕ) (indent : String) :
    (render data max indent).toList =
      (rows indent (data.take (limit data max))).flatMap (· ++ ['\n']) ++
        if limit data max < data.length then
          (moreLine indent (data.length - limit data max)).toList ++ ['\n']
        else [] := by
  have hrows : (rows indent (data.take (limit data max))).flatMap (· ++ ['\n']) =
      (Chunks.chunks 16 (data.take (limit data max))).zipIdx.flatMap fun c =>
        renderRow indent c.2 c.1 := by
    simp [rows, List.flatMap_map, renderRow_eq]
  have hrender : render data max indent =
      String.ofList ((Chunks.chunks 16 (data.take (limit data max))).zipIdx.flatMap fun c =>
          renderRow indent c.2 c.1) ++
        if limit data max < data.length then
          indent ++ "... " ++ toString (data.length - limit data max) ++ " more bytes\n"
        else "" := rfl
  rw [hrender, hrows]
  split_ifs <;> simp [moreLine]

/-- A dump has a row for each sixteen bytes, everything in a row is at its
column, and the rows give back the bytes up to the limit. -/
theorem render_lossless (data : List UInt8) (max : ℕ) (indent : String)
    (hdata : data.length < 2 ^ 32) (hindent : '\n' ∉ indent.toList) :
    ∃ rows : List (List Char),
      (render data max indent).toList.splitOn '\n' =
        rows ++ (if limit data max < data.length then
          [(moreLine indent (data.length - limit data max)).toList] else []) ++ [[]] ∧
      rows.length = (limit data max + 15) / 16 ∧
      (∀ (k : ℕ) (hk : k < rows.length),
        IsRow indent (data.take (limit data max)) k rows[k]) ∧
      rows.flatMap (decodeRow indent.toList.length) = data.take (limit data max) := by
  have hlength : (data.take (limit data max)).length = limit data max :=
    List.length_take_of_le (limit_le data max)
  have hshown : (data.take (limit data max)).length < 2 ^ 32 := by
    rw [hlength]
    exact (limit_le data max).trans_lt hdata
  refine ⟨rows indent (data.take (limit data max)), ?_, ?_, ?_, flatMap_decodeRow_rows hshown⟩
  · rw [render_eq, Text.splitOn_lines (newline_not_mem_rows hindent _), List.append_assoc]
    congr 1
    split_ifs with hmore
    · rw [List.splitOn_append_cons_self_of_not_mem (newline_not_mem_moreLine hindent _),
        List.splitOn_nil, List.singleton_append]
    · rw [List.splitOn_nil, List.nil_append]
  · rw [length_rows, hlength]
  · exact fun k hk => isRow_rows hshown hk

/-- Seventeen bars, each of which the gutter shows as it stands. -/
theorem render_lossless_bars :
    ∃ rows : List (List Char),
      (render (List.replicate 17 124) 0 "  ").toList.splitOn '\n' = rows ++ [[]] ∧
      rows.length = 2 ∧ rows.flatMap (decodeRow 2) = List.replicate 17 124 := by
  obtain ⟨rows, hlines, hlength, -, hbytes⟩ :=
    render_lossless (List.replicate 17 124) 0 "  " (by decide) (by decide)
  exact ⟨rows, by simpa [limit] using hlines, hlength, hbytes⟩

end Hexdump

end KirbLaSnoop
