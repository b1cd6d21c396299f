import ModelFormula.Schema.Basic
import ModelFormula.Table.Column

/-! # Batches

A batch holds named columns of one length. Names may repeat; a name means its first column. A
batch without columns still has a number of rows.
-/

namespace ModelFormula

structure Batch where
  rows : Nat
  columns : List (String × Column)
  size_eq : ∀ column ∈ columns, column.2.size = rows

namespace Batch

/-- The batch of these columns, if all have the given length. -/
def ofColumns? (rows : Nat) (columns : List (String × Column)) : Option Batch :=
  if h : ∀ column ∈ columns, column.2.size = rows then some ⟨rows, columns, h⟩ else none

def column? (b : Batch) (name : String) : Option Column := b.columns.lookup name

theorem size_of_column? {b : Batch} {name : String} {column : Column}
    (h : b.column? name = some column) : column.size = b.rows := by
  obtain ⟨before, after, e, -⟩ := List.lookup_eq_some_iff.mp h
  exact b.size_eq (name, column) (by simp [e])

def slice (b : Batch) (start stop : Nat) : Batch where
  rows := min stop b.rows - start
  columns := b.columns.map fun column => (column.1, column.2.slice start stop)
  size_eq := by
    intro column h
    obtain ⟨whole, hw, rfl⟩ := List.mem_map.mp h
    simp [b.size_eq whole hw]

def emptyOf (s : Schema) : Batch where
  rows := 0
  columns := s.fields.map fun field => (field.name, Column.empty field.type)
  size_eq := by
    intro column h
    obtain ⟨field, -, rfl⟩ := List.mem_map.mp h
    simp

end Batch

end ModelFormula
