import IdlWorkbench.Format.Layout
import Mathlib.Data.List.Forall2

/-!
# Sections are aligned

A column begins behind the columns before it, each of them as wide as its widest cell that has another one behind it,
with a blank more. A cell that is filled up is one of those cells, so it is never wider than its column, and what
follows begins where the next column does. The last cell of a row is not filled up and does not count for the width.
-/

namespace IdlWorkbench.Format

/-- The cells stand in the text in order, one blank or more between neighbours. The text begins at offset `start`,
and the list says at which offsets its cells begin. -/
inductive Spaced : (start : Nat) → (cells : List String) → List Nat → (text : String) → Prop
  | nil {start : Nat} : Spaced start [] [] ""
  | last {start : Nat} (cell : String) : Spaced start [cell] [start] cell
  | cons {start gap : Nat} {cell next text : String} {rest : List String} {starts : List Nat} : 0 < gap →
      Spaced (start + cell.length + gap) (next :: rest) starts text →
      Spaced start (cell :: next :: rest) (start :: starts) (cell ++ repeatText gap " " ++ text)

def columnStart (indent : String) (rows : List (List String)) : Nat → Nat
  | 0 => indent.length
  | column + 1 => columnStart indent rows column + columnWidth rows column + 1

@[simp] theorem columnStart_zero (indent : String) (rows : List (List String)) :
    columnStart indent rows 0 = indent.length := rfl

theorem columnStart_succ (indent : String) (rows : List (List String)) (column : Nat) :
    columnStart indent rows (column + 1) = columnStart indent rows column + columnWidth rows column + 1 := rfl

/-! ## Widths -/

theorem le_foldl_max : ∀ (ns : List Nat) (m : Nat), m ≤ ns.foldl max m ∧ ∀ n ∈ ns, n ≤ ns.foldl max m
  | [], m => ⟨Nat.le_refl m, nofun⟩
  | n :: ns, m => by
    obtain ⟨hstart, hall⟩ := le_foldl_max ns (max m n)
    rw [List.foldl_cons]
    refine ⟨Nat.le_trans (Nat.le_max_left m n) hstart, List.forall_mem_cons.mpr ⟨?_, hall⟩⟩
    exact Nat.le_trans (Nat.le_max_right m n) hstart

theorem length_le_widest {xs : List String} {x : String} (h : x ∈ xs) : x.length ≤ widest xs :=
  (le_foldl_max _ 0).2 _ (List.mem_map_of_mem h)

/-- What is filled up fits its column. -/
theorem length_le_columnWidth {rows : List (List String)} {row : List String} (hrow : row ∈ rows) {column : Nat}
    {cell : String} (hcell : row[column]? = some cell) (hmore : column + 1 < row.length) :
    cell.length ≤ columnWidth rows column := by
  apply length_le_widest
  rw [List.mem_filterMap]
  exact ⟨row, List.mem_filter.mpr ⟨hrow, by simpa using hmore⟩, hcell⟩

/-! ## Rows -/

theorem repeatText_succ (n : Nat) (unit : String) : repeatText (n + 1) unit = repeatText n unit ++ unit := by
  rw [repeatText, repeatText, List.replicate_succ', String.join_append]
  simp

/-- Cells that fit their columns begin where the columns do. -/
theorem spaced_cellsText {width start : Nat → Nat} (hstart : ∀ c, start (c + 1) = start c + width c + 1) :
    ∀ (cells : List String) (column : Nat),
      (∀ i cell, cells[i]? = some cell → i + 1 < cells.length → cell.length ≤ width (column + i)) →
      Spaced (start column) cells ((List.range cells.length).map fun i => start (column + i))
        (cellsText width column cells)
  | [], column, _ => .nil
  | [cell], column, _ => .last cell
  | cell :: next :: rest, column, hfit => by
    have hcell : cell.length ≤ width column := hfit 0 cell rfl (by simp)
    have hrest : ∀ i other, (next :: rest)[i]? = some other → i + 1 < (next :: rest).length →
        other.length ≤ width (column + 1 + i) := by
      intro i other hother hmore
      rw [Nat.add_right_comm]
      exact hfit (i + 1) other hother (Nat.succ_lt_succ hmore)
    have ih := spaced_cellsText hstart (next :: rest) (column + 1) hrest
    have hnext : start (column + 1) = start column + cell.length + (width column - cell.length + 1) := by
      rw [hstart]
      omega
    have hstarts : ((List.range (cell :: next :: rest).length).map fun i => start (column + i)) =
        start column :: (List.range (next :: rest).length).map fun i => start (column + 1 + i) := by
      rw [List.length_cons, List.range_succ_eq_map, List.map_cons, List.map_map]
      simp only [Function.comp_def, Nat.add_zero, Nat.add_right_comm column 1, Nat.succ_eq_add_one, Nat.add_assoc]
    have htext : cellsText width column (cell :: next :: rest) =
        cell ++ repeatText (width column - cell.length + 1) " " ++ cellsText width (column + 1) (next :: rest) := by
      rw [cellsText, padding, repeatText_succ]
      · simp only [String.append_assoc]
      · exact nofun
    rw [hstarts, htext]
    rw [hnext] at ih
    exact .cons (Nat.succ_pos _) ih

/-- Columns are aligned, and no cell is too wide to be filled up: each cell with another one behind it fits its
column, and each line of a section is the indentation and the cells of its row in order, one blank or more between
neighbours, where the cells of a column all begin at the same offset. -/
theorem columns_aligned (indent : String) (rows : List (List String)) :
    (∀ row ∈ rows, ∀ column cell, row[column]? = some cell → column + 1 < row.length →
      cell.length ≤ columnWidth rows column) ∧
    List.Forall₂ (fun row line => ∃ text, line = indent ++ text ∧
      Spaced indent.length row ((List.range row.length).map (columnStart indent rows)) text)
      rows (sectionLines indent rows) := by
  refine ⟨fun row hrow column cell => length_le_columnWidth hrow, ?_⟩
  rw [sectionLines, List.forall₂_map_right_iff, List.forall₂_same]
  intro row hrow
  refine ⟨_, rfl, ?_⟩
  have hspaced := spaced_cellsText (columnStart_succ indent rows) row 0 fun i cell hcell hmore => by
    rw [Nat.zero_add]
    exact length_le_columnWidth hrow hcell hmore
  simpa only [Nat.zero_add, columnStart_zero] using hspaced

/-- Rows of different lengths, where a last cell is wider than the column that it stands in. -/
example : sectionLines "\t" [["a", "int", "// x"], ["bc", "a wide last cell"], ["d"], []] =
    ["\ta  int // x", "\tbc a wide last cell", "\td", "\t"] := by decide +kernel

end IdlWorkbench.Format
