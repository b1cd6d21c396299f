import ModelFormula.Formula.Printer
import ModelFormula.Model

/-! # Commands

What can be asked about a formula and declared fields: the formula without wildcard, the output
schema, or the names of the design matrix's columns.
-/

namespace ModelFormula

inductive Command
  | expand
  | schema
  | columns (encoding : Encoding)
  deriving DecidableEq, Repr

inductive CommandError
  /-- The declared fields form no schema. -/
  | schema (error : SchemaError)
  | model (error : ModelError)
  deriving DecidableEq, Repr

/-- What a command has to say: a text, and columns that the formula does not use. -/
structure Finding where
  text : String
  unused : List String := []
  deriving DecidableEq, Repr

namespace CommandError

def indented (text : String) : String :=
  "    " ++ String.ofList ("\n    ".toList.intercalate (text.toList.splitOn '\n'))

def message : CommandError → String
  | schema error => "invalid schema\n\nCaused by:\n" ++ indented error.message
  | model error => error.message

end CommandError

/-- The columns of a schema that no plan reads. -/
def BoundFormula.unusedColumns (b : BoundFormula) : List String :=
  b.input.names.filter fun name => decide (name ∉ b.sourceFields.map Field.name)

namespace Command

def runOn (s : Schema) (text : String) : Command → Except ModelError Finding
  | expand =>
    match (Formula.parse text).mapError .parse >>= (·.expand s) with
    | .error e => .error (.formula e)
    | .ok f => .ok { text := f.render }
  | schema => do
    let model ← Model.parse text s
    return { text := model.outputSchema.render, unused := model.bound.unusedColumns }
  | columns encoding => do
    let model ← Model.parse text s
    let evaluation ← model.evaluate (Batch.emptyOf s)
    return { text := String.intercalate "\n" (evaluation.x encoding).names }

def run (command : Command) (fields : List Field) (text : String) :
    Except CommandError Finding :=
  match Schema.ofFields fields with
  | .error e => .error (.schema e)
  | .ok s => (command.runOn s text).mapError .model

end Command

end ModelFormula
