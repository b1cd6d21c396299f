/-! # Design matrices

A dense matrix of floats with named columns, stored row after row.
-/

namespace ModelFormula

structure Matrix where
  names : List String
  rows : Nat
  data : Array Float
  size_eq : data.size = rows * names.length

namespace Matrix

def width (m : Matrix) : Nat := m.names.length

def get? (m : Matrix) (row column : Nat) : Option Float :=
  if row < m.rows ∧ column < m.width then m.data[row * m.width + column]? else none

def row? (m : Matrix) (row : Nat) : Option (List Float) :=
  if row < m.rows then some (m.data.extract (row * m.width) ((row + 1) * m.width)).toList
  else none

def rowList (m : Matrix) : List (List Float) := (List.range m.rows).filterMap m.row?

/-- The cells of the first column with this name, from top to bottom. -/
def column? (m : Matrix) (name : String) : Option (List Float) :=
  (m.names.idxOf? name).map fun column =>
    (List.range m.rows).filterMap fun row => m.get? row column

theorem length_flatMap_map {α β : Type} (rows : List Nat) (columns : List α)
    (cell : Nat → α → β) :
    (rows.flatMap fun row => columns.map (cell row)).length = rows.length * columns.length := by
  induction rows with
  | nil => simp
  | cons row rows ih => simp [List.flatMap_cons, ih, Nat.succ_mul, Nat.add_comm]

/-- The matrix of named columns, each given by its cell in every row. -/
def ofColumns (rows : Nat) (columns : List (String × (Nat → Float))) : Matrix where
  names := columns.map (·.1)
  rows
  data := ((List.range rows).flatMap fun row => columns.map fun column => column.2 row).toArray
  size_eq := by
    rw [List.size_toArray, length_flatMap_map, List.length_range, List.length_map]

end Matrix

end ModelFormula
