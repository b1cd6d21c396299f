import ModelFormula.Formula.Resolution
import ModelFormula.Plan.OfTerm

/-! # Bound formulas

Binding a formula to a schema resolves it, plans the response and every predictor but the
intercept, and collects their outputs into a schema. A released response that is a predictor
again is planned twice and listed once.
-/

namespace ModelFormula

/-- A formula with its plans against a schema. -/
structure BoundFormula where
  /-- The formula after the wildcard has been replaced. -/
  formula : Formula
  input : Schema
  output : Schema
  response : Option TermPlan
  predictors : List TermPlan

/-- The response and the predictors that are not the response again. -/
def outputPlans (response : Option TermPlan) (predictors : List TermPlan) : List TermPlan :=
  response.toList ++
    predictors.filter fun plan => decide (response.map TermPlan.term ≠ some plan.term)

namespace BoundFormula

/-- The plans whose outputs form the output schema, in its order. -/
def plans (b : BoundFormula) : List TermPlan := outputPlans b.response b.predictors

def hasIntercept (b : BoundFormula) : Bool := b.formula.hasIntercept

/-- The positions of the input columns that some plan reads, increasing. -/
def usedColumns (b : BoundFormula) : List Nat :=
  ascending ((b.response.toList ++ b.predictors).flatMap TermPlan.sources)

/-- The input fields that some plan reads, in schema order. -/
def sourceFields (b : BoundFormula) : List Field :=
  b.usedColumns.filterMap (b.input.fields[·]?)

end BoundFormula

namespace Formula

def bind (f : Formula) (s : Schema) : Except FormulaError BoundFormula := do
  let resolved ← f.expand s
  let response ← resolved.responseTerm?.mapM (Term.responsePlan s)
  let predictors ← (resolved.predictors.filter (· ≠ .intercept)).mapM (Term.plan s)
  let outputs := (outputPlans response predictors).flatMap TermPlan.outputs
  let output ← (Schema.ofFields outputs).mapError .outputSchema
  return { formula := resolved, input := s, output, response, predictors }

end Formula

end ModelFormula
