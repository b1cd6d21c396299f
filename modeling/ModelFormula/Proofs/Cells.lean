import ModelFormula.Table.Column

/-! # The content of cells

A cell holds the same content whether it is stored as it is or as a key into the values of a
dictionary. A cell without content is read as NaN and has no label.
-/

namespace ModelFormula

/-- The content of a cell, without the way it is stored. -/
inductive CellValue
  | boolean (value : Bool)
  | integer (value : Int)
  | float32 (value : Float32)
  | float64 (value : Float)
  | text (value : String)
  | date (days : Int)

namespace Column

/-- The content in a row, looked up in the values of a dictionary; `none` is a missing one. -/
def cell? : Column → Nat → Option CellValue
  | boolean cells, row => cells[row]?.join.map .boolean
  | integer _ cells, row => cells[row]?.join.map .integer
  | float32 cells, row => cells[row]?.join.map .float32
  | float64 cells, row => cells[row]?.join.map .float64
  | text _ cells, row => cells[row]?.join.map .text
  | date32 cells, row => cells[row]?.join.map .date
  | null _, _ => none
  | dictionary _ keys values, row => keys[row]?.join.bind values.cell?

def cells (c : Column) : List (Option CellValue) := (List.range c.size).map c.cell?

variable {c : Column} {row : Nat}

theorem number_of_cell?_eq_none (h : c.cell? row = none) : c.number row = missing := by
  cases c with
  | boolean | integer | float32 | float64 =>
    rw [cell?, Option.map_eq_none_iff] at h
    rw [number, h]
    rfl
  | text | date32 | null | dictionary => rfl

theorem label?_of_cell?_eq_none (h : c.cell? row = none) : c.label? row = none := by
  cases c with
  | text =>
    rw [cell?, Option.map_eq_none_iff] at h
    exact h
  | dictionary key keys values =>
    cases values with
    | text layout labels =>
      rw [cell?, Option.bind_eq_none_iff] at h
      rw [label?, Option.bind_eq_none_iff]
      intro position hposition
      have hlabel := h position hposition
      rwa [cell?, Option.map_eq_none_iff] at hlabel
    | boolean | integer | float32 | float64 | date32 | null | dictionary => rfl
  | boolean | integer | float32 | float64 | date32 | null => rfl

end Column

end ModelFormula
