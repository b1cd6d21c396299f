import ModelFormula.Schema.Basic
import ModelFormula.Formula.Parser

/-! # Formula errors

What can be wrong with a formula: its text, a name that the schema or the function table does not
know, a term in a place where it means nothing, or output columns that form no schema.
-/

namespace ModelFormula

inductive TermFault
  | nestedPlaceholder
  | responseShape
  | unexpanded
  | tooFewOperands
  | categoryAsNumber (column : String)
  | notNumeric
  deriving DecidableEq, Repr

namespace TermFault

def message : TermFault → String
  | nestedPlaceholder => "a wildcard or crossing cannot be nested inside another term"
  | responseShape => "the response must be a variable or a function of one"
  | unexpanded => "must be expanded before planning"
  | tooFewOperands => "an interaction needs at least two operands"
  | categoryAsNumber column => s!"categorical column '{column}' cannot be used as a number here"
  | notNumeric => "not a numeric expression"

end TermFault

inductive FormulaError
  | parse (error : ParseError)
  | unresolvedColumn (name : String)
  /-- The response is a predictor too and has not been released. -/
  | duplicateResponse (term : Term)
  | unknownFunction (name : String)
  | invalidTerm (term : Term) (fault : TermFault)
  /-- No term can use a column of this type. -/
  | unsupportedColumn (field : Field)
  /-- The output columns form no schema. -/
  | outputSchema (error : SchemaError)
  deriving DecidableEq, Repr

namespace FormulaError

def message : FormulaError → String
  | parse error => error.message
  | unresolvedColumn name => s!"column '{name}' not found in schema"
  | duplicateResponse term => s!"response '{term}' also appears among the predictors"
  | unknownFunction name => s!"unknown function '{name}'"
  | invalidTerm term fault => s!"invalid term '{term}': " ++ fault.message
  | unsupportedColumn field =>
    s!"column '{field.name}' has unsupported type " ++ field.type.render
  | outputSchema error => error.message

end FormulaError

end ModelFormula
