import ModelFormula.Schema.Basic
import ModelFormula.Term.Printer
import ModelFormula.Table.StorageType

/-! # Evaluation errors

A batch may lack a column or store it otherwise than the schema says, its own columns may form no
schema, and a formula may have no response that is a single column.
-/

namespace ModelFormula

inductive EvaluationError
  /-- The column of a field is stored in a type that does not fit, or is not there. -/
  | mismatch (field : Field) (found : Option StorageType)
  | noResponse
  | unsupportedResponse (term : Term)
  /-- No data type corresponds to how the column is stored. -/
  | unsupportedStorage (column : String) (type : StorageType)
  | schema (error : SchemaError)
  deriving DecidableEq, Repr

namespace EvaluationError

/-- How a column of the type may be stored, in words. -/
def expected (type : DataType) : String :=
  if type.isCategorical then "Utf8 or Dictionary(_, Utf8)" else type.storage.name

def message : EvaluationError → String
  | mismatch field found =>
    s!"column '{field.name}' does not match the bound schema: expected "
      ++ expected field.type ++ ", found " ++ (found.map StorageType.name).getD "no such column"
  | noResponse => "formula has no response"
  | unsupportedResponse term => s!"response '{term}' cannot be materialized as a single array"
  | unsupportedStorage column type => s!"column '{column}' has unsupported Arrow type {type}"
  | schema error => error.message

end EvaluationError

end ModelFormula
