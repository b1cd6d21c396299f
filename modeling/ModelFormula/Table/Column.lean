import ModelFormula.Table.StorageType

/-! # Columns

The cells of a column in their storage type, where `none` is a missing cell. A column is read as
numbers, with NaN for what is missing, or as labels.
-/

namespace ModelFormula

def missing : Float := 0.0 / 0.0

inductive Column
  | boolean (cells : Array (Option Bool))
  | integer (kind : IntegerKind) (cells : Array (Option Int))
  | float32 (cells : Array (Option Float32))
  | float64 (cells : Array (Option Float))
  | text (layout : TextLayout) (cells : Array (Option String))
  /-- Days. -/
  | date32 (cells : Array (Option Int))
  /-- Missing cells only. -/
  | null (size : Nat)
  /-- Cells that refer to values by position. -/
  | dictionary (key : IntegerKind) (keys : Array (Option Nat)) (values : Column)

namespace Column

def storage : Column → StorageType
  | boolean _ => .boolean
  | integer kind _ => .integer kind
  | float32 _ => .float32
  | float64 _ => .float64
  | text layout _ => .text layout
  | date32 _ => .date32
  | null _ => .null
  | dictionary key _ values => .dictionary key values.storage

def size : Column → Nat
  | boolean cells => cells.size
  | integer _ cells => cells.size
  | float32 cells => cells.size
  | float64 cells => cells.size
  | text _ cells => cells.size
  | date32 cells => cells.size
  | null size => size
  | dictionary _ keys _ => keys.size

/-- The cells from `start` up to `stop`. The values of a dictionary are kept whole. -/
def slice (start stop : Nat) : Column → Column
  | boolean cells => boolean (cells.extract start stop)
  | integer kind cells => integer kind (cells.extract start stop)
  | float32 cells => float32 (cells.extract start stop)
  | float64 cells => float64 (cells.extract start stop)
  | text layout cells => text layout (cells.extract start stop)
  | date32 cells => date32 (cells.extract start stop)
  | null size => null (min stop size - start)
  | dictionary key keys values => dictionary key (keys.extract start stop) values

/-- The number in a row; a boolean is 0 or 1. -/
def number (row : Nat) : Column → Float
  | boolean cells => (cells[row]?.join.map fun b => if b then 1 else 0).getD missing
  | integer _ cells => (cells[row]?.join.map Float.ofInt).getD missing
  | float32 cells => (cells[row]?.join.map Float32.toFloat).getD missing
  | float64 cells => cells[row]?.join.getD missing
  | _ => missing

/-- The label in a row, looked up in the values of a dictionary. -/
def label? (row : Nat) : Column → Option String
  | text _ cells => cells[row]?.join
  | dictionary _ keys (text _ values) => keys[row]?.join.bind fun key => values[key]?.join
  | _ => none

/-- The labels in a dictionary, in its order and without missing ones. -/
def dictionaryLabels? : Column → Option (List String)
  | dictionary _ _ (text .view _) => none
  | dictionary _ _ (text _ values) => some (values.toList.filterMap id)
  | _ => none

def empty : DataType → Column
  | .bool => boolean #[]
  | .i8 => integer .i8 #[]
  | .i16 => integer .i16 #[]
  | .i32 => integer .i32 #[]
  | .i64 => integer .i64 #[]
  | .f32 => float32 #[]
  | .f64 => float64 #[]
  | .string => text .short #[]
  | .categorical _ => dictionary .i32 #[] (text .short #[])

@[simp] theorem storage_empty (type : DataType) : (empty type).storage = type.storage := by
  cases type <;> rfl

@[simp] theorem size_empty (type : DataType) : (empty type).size = 0 := by cases type <;> rfl

@[simp] theorem storage_slice (start stop : Nat) (c : Column) :
    (c.slice start stop).storage = c.storage := by
  cases c <;> rfl

@[simp] theorem size_slice (start stop : Nat) (c : Column) :
    (c.slice start stop).size = min stop c.size - start := by
  cases c <;> simp [slice, size]

end Column

end ModelFormula
