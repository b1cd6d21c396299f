import ModelFormula.Design.Matrix
import ModelFormula.Proofs.Results

/-! # Access to a matrix

A matrix keeps its rows one after the other. Cells, rows and named columns are looked up by bounds
of their own, and a lookup that finds too little might cut a row short or leave it out. None does:
whatever is found lies where the data have it, and all rows together are the data.
-/

namespace ModelFormula

namespace Matrix

variable {m : Matrix} {name : String} {row column j : Nat} {cells : List Float}

/-- The cells between two places of the data, when the data reach that far. -/
def slice? (m : Matrix) (start stop : Nat) : Option (List Float) :=
  if start ≤ stop ∧ stop ≤ m.data.size then some (m.data.extract start stop).toList else none

structure IsColumn (m : Matrix) (j : Nat) (cells : List Float) : Prop where

  length : cells.length = m.rows

  cell : ∀ row < m.rows, cells[row]? = m.get? row j

/-! ## Cells and rows -/

theorem mul_width_le (hrow : row < m.rows) : (row + 1) * m.width ≤ m.data.size := by
  rw [m.size_eq]
  exact Nat.mul_le_mul_right _ hrow

theorem exists_get? (hrow : row < m.rows) (hj : j < m.width) :
    ∃ value, m.get? row j = some value := by
  have hlt : row * m.width + j < m.data.size := calc
    row * m.width + j < row * m.width + m.width := Nat.add_lt_add_left hj _
    _ = (row + 1) * m.width := (Nat.succ_mul _ _).symm
    _ ≤ m.data.size := mul_width_le hrow
  exact ⟨m.data[row * m.width + j], by simp [get?, hrow, hj, hlt]⟩

theorem isSome_get?_iff : (m.get? row column).isSome = true ↔ row < m.rows ∧ column < m.width := by
  constructor
  · intro h
    unfold get? at h
    split at h
    · assumption
    · cases h
  · rintro ⟨hrow, hcolumn⟩
    obtain ⟨value, hvalue⟩ := exists_get? hrow hcolumn
    rw [hvalue, Option.isSome_some]

theorem row?_of_lt (hrow : row < m.rows) :
    m.row? row = some ((m.data.toList.drop (row * m.width)).take m.width) := by
  have hextent : (row + 1) * m.width - row * m.width = m.width := by
    rw [Nat.succ_mul, Nat.add_sub_cancel_left]
  rw [row?, if_pos hrow, Array.toList_extract, List.extract_eq_take_drop, hextent]

theorem row?_of_le (hrow : m.rows ≤ row) : m.row? row = none := if_neg (Nat.not_lt.mpr hrow)

theorem isSome_row?_iff : (m.row? row).isSome = true ↔ row < m.rows := by
  by_cases hrow : row < m.rows
  · simp [row?_of_lt hrow, hrow]
  · simp [row?_of_le (Nat.not_lt.mp hrow), hrow]

theorem length_of_row? (h : m.row? row = some cells) : cells.length = m.width := by
  have hrow : row < m.rows := isSome_row?_iff.mp (by simp [h])
  have hsize := mul_width_le hrow
  rw [Nat.succ_mul] at hsize
  rw [row?_of_lt hrow] at h
  obtain rfl := Option.some.inj h
  rw [List.length_take, List.length_drop, Array.length_toList]
  omega

theorem getElem?_of_row? (h : m.row? row = some cells) (column : Nat) :
    cells[column]? = m.get? row column := by
  have hrow : row < m.rows := isSome_row?_iff.mp (by simp [h])
  by_cases hcolumn : column < m.width
  · rw [row?_of_lt hrow] at h
    obtain rfl := Option.some.inj h
    rw [get?, if_pos ⟨hrow, hcolumn⟩, List.getElem?_take, if_pos hcolumn, List.getElem?_drop,
      Array.getElem?_toList]
  · have hlength := length_of_row? h
    rw [get?, if_neg fun hlt => hcolumn hlt.2, List.getElem?_eq_none (by omega)]

theorem slice?_row (hrow : row < m.rows) :
    m.slice? (row * m.width) ((row + 1) * m.width) = m.row? row := by
  have hbounds : row * m.width ≤ (row + 1) * m.width ∧ (row + 1) * m.width ≤ m.data.size :=
    ⟨Nat.mul_le_mul_right _ (Nat.le_succ row), mul_width_le hrow⟩
  rw [slice?, if_pos hbounds, row?, if_pos hrow]

/-! ## All rows -/

theorem rowList_eq : m.rowList =
    (List.range m.rows).map fun row => (m.data.toList.drop (row * m.width)).take m.width := by
  rw [rowList, ← List.filterMap_eq_map]
  exact List.filterMap_congr fun row hrow => row?_of_lt (List.mem_range.mp hrow)

/-- No row is left out of the list, so that each stands in its own place. -/
theorem getElem?_rowList (m : Matrix) (row : Nat) : m.rowList[row]? = m.row? row := by
  rw [rowList_eq, List.getElem?_map]
  by_cases hrow : row < m.rows
  · rw [List.getElem?_range hrow, Option.map_some, row?_of_lt hrow]
  · rw [row?_of_le (Nat.not_lt.mp hrow), List.getElem?_eq_none (by simpa using hrow),
      Option.map_none]

theorem length_rowList (m : Matrix) : m.rowList.length = m.rows := by
  rw [rowList_eq, List.length_map, List.length_range]

theorem flatten_take_drop {α : Type} (l : List α) (width count : Nat) :
    ((List.range count).map fun i => (l.drop (i * width)).take width).flatten =
      l.take (count * width) := by
  induction count with
  | zero => simp
  | succ count ih =>
    rw [List.range_succ, List.map_append, List.flatten_append, ih, Nat.succ_mul, List.take_add]
    simp

theorem flatten_rowList (m : Matrix) : m.rowList.flatten = m.data.toList := by
  have hlength : m.data.toList.length = m.rows * m.width := by
    rw [Array.length_toList, m.size_eq, width]
  rw [rowList_eq, flatten_take_drop, ← hlength, List.take_length]

/-! ## Columns -/

theorem get?_eq_bind (m : Matrix) (row column : Nat) :
    m.get? row column = (m.row? row).bind (·[column]?) := by
  cases h : m.row? row with
  | some cells => exact (getElem?_of_row? h column).symm
  | none =>
    have hrow : ¬ row < m.rows := fun hlt => by simp [row?_of_lt hlt] at h
    exact if_neg fun hlt => hrow hlt.1

theorem getElem?_of_mem_rowList (hj : j < m.width) (h : cells ∈ m.rowList) :
    cells[j]? = some (cells[j]?.getD 0) := by
  obtain ⟨row, -, hrow⟩ := List.mem_filterMap.mp h
  have hlt : j < cells.length := by rwa [length_of_row? hrow]
  rw [List.getElem?_eq_getElem hlt, Option.getD_some]

theorem filterMap_get? (hj : j < m.width) :
    ((List.range m.rows).filterMap fun row => m.get? row j) =
      m.rowList.map fun cells => cells[j]?.getD 0 := calc
  _ = m.rowList.filterMap (·[j]?) := by
    rw [rowList, List.filterMap_filterMap]
    exact List.filterMap_congr fun row _ => get?_eq_bind m row j
  _ = m.rowList.filterMap fun cells => some (cells[j]?.getD 0) :=
    List.filterMap_congr fun cells => getElem?_of_mem_rowList hj
  _ = m.rowList.map fun cells => cells[j]?.getD 0 := congrFun List.filterMap_eq_map _

theorem mapM_rowList (hj : j < m.width) : m.rowList.mapM (·[j]?) =
    some ((List.range m.rows).filterMap fun row => m.get? row j) := by
  rw [filterMap_get? hj]
  exact mapM_eq_some_map fun cells => getElem?_of_mem_rowList hj

theorem isColumn_filterMap (hj : j < m.width) :
    m.IsColumn j ((List.range m.rows).filterMap fun row => m.get? row j) := by
  rw [filterMap_get? hj]
  constructor
  · rw [List.length_map, length_rowList]
  · intro row hrow
    obtain ⟨cells, hcells⟩ := Option.isSome_iff_exists.mp (isSome_row?_iff.mpr hrow)
    have hmem : cells ∈ m.rowList := List.mem_of_getElem? ((getElem?_rowList m row).trans hcells)
    rw [List.getElem?_map, getElem?_rowList, hcells, Option.map_some,
      ← getElem?_of_mem_rowList hj hmem, getElem?_of_row? hcells]

theorem isSome_column?_iff : (m.column? name).isSome = true ↔ name ∈ m.names := by
  rw [column?, Option.isSome_map, List.isSome_idxOf?]

theorem exists_of_column? (h : m.column? name = some cells) : ∃ j < m.width,
    m.names[j]? = some name ∧ (∀ i < j, m.names[i]? ≠ some name) ∧
      cells = (List.range m.rows).filterMap fun row => m.get? row j := by
  obtain ⟨j, hj, rfl⟩ := Option.map_eq_some_iff.mp h
  obtain ⟨hlt, hname, hfirst⟩ := List.idxOf?_eq_some_iff.mp hj
  refine ⟨j, hlt, ?_, fun i hi => ?_, rfl⟩
  · rw [List.getElem?_eq_getElem hlt, hname]
  · intro hi'
    obtain ⟨hlt', he⟩ := List.getElem?_eq_some_iff.mp hi'
    exact hfirst i hi he

theorem exists_column_of_mem (h : name ∈ m.names) : ∃ j cells, m.names[j]? = some name ∧
    (∀ i < j, m.names[i]? ≠ some name) ∧ m.column? name = some cells ∧ m.IsColumn j cells := by
  obtain ⟨cells, hcells⟩ := Option.isSome_iff_exists.mp (isSome_column?_iff.mpr h)
  obtain ⟨j, hj, hname, hfirst, rfl⟩ := exists_of_column? hcells
  exact ⟨j, _, hname, hfirst, hcells, isColumn_filterMap hj⟩

/-- The ways to look into a matrix show the same data, and none of them comes to an end of the data
before its own. -/
structure AccessorsAgree (m : Matrix) : Prop where

  isSome_get?_iff : ∀ row column,
    (m.get? row column).isSome = true ↔ row < m.rows ∧ column < m.width

  get? : ∀ row column value, m.get? row column = some value →
    (∃ cells, m.row? row = some cells ∧ cells[column]? = some value) ∧
      m.data[row * m.width + column]? = some value

  isSome_row?_iff : ∀ row, (m.row? row).isSome = true ↔ row < m.rows

  length_row : ∀ row cells, m.row? row = some cells → cells.length = m.width

  row?_eq_slice? : ∀ row < m.rows,
    m.row? row = m.slice? (row * m.width) ((row + 1) * m.width)

  getElem?_rowList : ∀ row, m.rowList[row]? = m.row? row

  length_rowList : m.rowList.length = m.rows

  flatten_rowList : m.rowList.flatten = m.data.toList

  isSome_column?_iff : ∀ name, (m.column? name).isSome = true ↔ name ∈ m.names

  column : ∀ name cells, m.column? name = some cells → ∃ j, m.names[j]? = some name ∧
    (∀ i < j, m.names[i]? ≠ some name) ∧ m.IsColumn j cells ∧
      m.rowList.mapM (·[j]?) = some cells

/-- Cells, rows, columns and the data of any matrix agree, also without any row or column. -/
theorem accessorsAgree (m : Matrix) : m.AccessorsAgree where
  isSome_get?_iff _ _ := isSome_get?_iff
  get? := by
    intro row column value h
    obtain ⟨cells, hcells, hvalue⟩ := Option.bind_eq_some_iff.mp (get?_eq_bind m row column ▸ h)
    have hbounds : row < m.rows ∧ column < m.width := isSome_get?_iff.mp (by simp [h])
    rw [Matrix.get?, if_pos hbounds] at h
    exact ⟨⟨cells, hcells, hvalue⟩, h⟩
  isSome_row?_iff _ := isSome_row?_iff
  length_row _ _ := length_of_row?
  row?_eq_slice? _ hrow := (slice?_row hrow).symm
  getElem?_rowList := Matrix.getElem?_rowList m
  length_rowList := Matrix.length_rowList m
  flatten_rowList := Matrix.flatten_rowList m
  isSome_column?_iff _ := isSome_column?_iff
  column := by
    intro name cells h
    obtain ⟨j, hj, hname, hfirst, rfl⟩ := exists_of_column? h
    exact ⟨j, hname, hfirst, isColumn_filterMap hj, mapM_rowList hj⟩

/-- A matrix without columns has all of its rows. -/
example : ({ names := [], rows := 2, data := #[], size_eq := rfl } : Matrix).rowList = [[], []] :=
  rfl

end Matrix

end ModelFormula
