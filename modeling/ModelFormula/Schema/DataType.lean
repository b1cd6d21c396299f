import ModelFormula.Text.Blank

/-! # Data types

The type of a column: a boolean, an integer or a float of some width, a text, or a category with
its levels in declared order. A type is written as text and read back.
-/

namespace ModelFormula

/-- The logical type of a column. The position of a level is its code. -/
inductive DataType
  | bool | i8 | i16 | i32 | i64 | f32 | f64 | string
  | categorical (levels : List String)
  deriving DecidableEq, Repr

inductive SchemaError
  | duplicateField (name : String)
  | emptyLevels (field : String)
  | duplicateLevel (field level : String)
  | unknownType (text : String)
  deriving DecidableEq, Repr

namespace SchemaError

def message : SchemaError → String
  | duplicateField name => s!"duplicate field name '{name}'"
  | emptyLevels field => s!"categorical field '{field}' has no levels"
  | duplicateLevel field level => s!"categorical field '{field}' repeats level '{level}'"
  | unknownType text => s!"unknown data type '{text}'"

end SchemaError

namespace DataType

def name : DataType → String
  | bool => "bool"
  | i8 => "i8"
  | i16 => "i16"
  | i32 => "i32"
  | i64 => "i64"
  | f32 => "f32"
  | f64 => "f64"
  | string => "string"
  | categorical _ => "categorical"

def levels? : DataType → Option (List String)
  | categorical levels => some levels
  | _ => none

def isCategorical (type : DataType) : Bool := type.levels?.isSome

/-- Whether a value of the type is a number; a boolean counts as 0 or 1. -/
def isNumeric : DataType → Bool
  | string | categorical _ => false
  | _ => true

def render : DataType → String
  | categorical levels => "categorical[" ++ String.intercalate "," levels ++ "]"
  | type => type.name

instance : ToString DataType := ⟨render⟩

/-- The type without levels that a word stands for. Capital letters count as small ones. -/
def ofWord? (word : List Char) : Option DataType :=
  match String.ofList (word.map Char.toLower) with
  | "bool" | "boolean" => some bool
  | "i8" | "int8" => some i8
  | "i16" | "int16" => some i16
  | "i32" | "int32" => some i32
  | "i64" | "int64" => some i64
  | "f32" | "float32" => some f32
  | "f64" | "float64" => some f64
  | "string" => some string
  | _ => none

/-- The levels between the brackets of a category: cut at commas and trimmed, empty ones left
out. -/
def levelsOf (cs : List Char) : List String :=
  (((cs.splitOn ',').map Text.trim).filter fun level => !level.isEmpty).map String.ofList

/-- What stands between `categorical[` and a final `]`. -/
def bracketed? (cs : List Char) : Option (List Char) := do
  let rest ← "categorical[".toList.isPrefixOf? cs
  let inside ← [']'].isSuffixOf? rest
  return inside

/-- Reads the text of a type, with blanks around it ignored. -/
def ofString (text : String) : Except SchemaError DataType :=
  let cs := Text.trim text.toList
  match ofWord? cs, bracketed? cs with
  | some type, _ => .ok type
  | none, some inside => .ok (categorical (levelsOf inside))
  | none, none => .error (.unknownType (String.ofList cs))

end DataType

end ModelFormula
