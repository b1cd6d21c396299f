import ModelFormula.Table.Batch
import ModelFormula.Table.Error

/-! # The schema of a batch

A dictionary of texts is a category whose levels are its values in order; plain columns have the
data type of their storage.
-/

namespace ModelFormula

namespace Column

def dataType? (c : Column) : Option DataType :=
  match c.dictionaryLabels? with
  | some labels => some (.categorical labels)
  | none => c.storage.dataType?

end Column

namespace Batch

def field (column : String × Column) : Except EvaluationError Field :=
  match column.2.dataType? with
  | some type => .ok { name := column.1, type }
  | none => .error (.unsupportedStorage column.1 column.2.storage)

def schema (b : Batch) : Except EvaluationError Schema := do
  let fields ← b.columns.mapM field
  (Schema.ofFields fields).mapError .schema

end Batch

namespace Schema

def storage (s : Schema) : List (String × StorageType) :=
  s.fields.map fun field => (field.name, field.type.storage)

end Schema

end ModelFormula
