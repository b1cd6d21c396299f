import ModelFormula.Schema.DataType

/-! # Storage types

How the cells of a column are stored. One data type has one storage type; a batch may hold
columns of others, which are then refused or, for categories, read as labels.
-/

namespace ModelFormula

inductive IntegerKind
  | i8 | i16 | i32 | i64 | u8 | u16 | u32 | u64
  deriving DecidableEq, Repr

/-- The layout of texts: with short or long offsets, or as views. -/
inductive TextLayout
  | short | long | view
  deriving DecidableEq, Repr

inductive StorageType
  | boolean
  | integer (kind : IntegerKind)
  | float32 | float64
  | text (layout : TextLayout)
  | date32
  | null
  /-- Values that are stored once and referred to by keys. -/
  | dictionary (key : IntegerKind) (value : StorageType)
  deriving DecidableEq, Repr

def IntegerKind.name : IntegerKind → String
  | i8 => "Int8"
  | i16 => "Int16"
  | i32 => "Int32"
  | i64 => "Int64"
  | u8 => "UInt8"
  | u16 => "UInt16"
  | u32 => "UInt32"
  | u64 => "UInt64"

def TextLayout.name : TextLayout → String
  | short => "Utf8"
  | long => "LargeUtf8"
  | view => "Utf8View"

namespace StorageType

def name : StorageType → String
  | boolean => "Boolean"
  | integer kind => kind.name
  | float32 => "Float32"
  | float64 => "Float64"
  | text layout => layout.name
  | date32 => "Date32"
  | null => "Null"
  | dictionary key value => "Dictionary(" ++ key.name ++ ", " ++ value.name ++ ")"

instance : ToString StorageType := ⟨name⟩

/-- Whether cells of the type are labels of a category; views are not read as such. -/
def isLabel : StorageType → Bool
  | text .view => false
  | text _ => true
  | _ => false

/-- The data type of a plain column; a dictionary needs its values too. -/
def dataType? : StorageType → Option DataType
  | boolean => some .bool
  | integer .i8 => some .i8
  | integer .i16 => some .i16
  | integer .i32 => some .i32
  | integer .i64 => some .i64
  | float32 => some .f32
  | float64 => some .f64
  | text .short | text .long => some .string
  | _ => none

end StorageType

namespace DataType

def storage : DataType → StorageType
  | bool => .boolean
  | i8 => .integer .i8
  | i16 => .integer .i16
  | i32 => .integer .i32
  | i64 => .integer .i64
  | f32 => .float32
  | f64 => .float64
  | string => .text .short
  | categorical _ => .dictionary .i32 (.text .short)

/-- Whether a column stored this way can be read as the data type: a category takes labels, plain
or in a dictionary, and every other type takes its own storage only. -/
def accepts (type : DataType) (found : StorageType) : Bool :=
  if type.isCategorical then
    match found with
    | .dictionary _ value => value.isLabel
    | found => found.isLabel
  else decide (found = type.storage)

theorem accepts_storage (type : DataType) : type.accepts type.storage = true := by
  cases type <;> simp [accepts, storage, isCategorical, levels?, StorageType.isLabel]

end DataType

end ModelFormula
