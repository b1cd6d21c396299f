import ModelFormula.Table.Description
import ModelFormula.Design.Evaluation

/-! # Models

A model is a formula bound once and evaluated on many batches, also on the partitions of a table.
-/

namespace ModelFormula

inductive ModelError
  | formula (error : FormulaError)
  | evaluation (error : EvaluationError)
  /-- The partition at this position cannot be evaluated. -/
  | partition (index : Nat) (error : EvaluationError)
  deriving DecidableEq, Repr

namespace ModelError

def message : ModelError → String
  | formula error => error.message
  | evaluation error => error.message
  | partition index error => s!"partition {index} failed: " ++ error.message

end ModelError

structure Model where
  bound : BoundFormula

namespace Model

def ofFormula (f : Formula) (s : Schema) : Except ModelError Model :=
  ((f.bind s).mapError .formula).map Model.mk

def parse (text : String) (s : Schema) : Except ModelError Model :=
  match Formula.parse text with
  | .error e => .error (.formula (.parse e))
  | .ok f => ofFormula f s

def ofBatch (text : String) (batch : Batch) : Except ModelError Model :=
  match batch.schema with
  | .error e => .error (.evaluation e)
  | .ok s => parse text s

variable (m : Model)

def outputSchema : Schema := m.bound.output

def evaluate (batch : Batch) : Except ModelError Evaluation :=
  (m.bound.evaluate batch).mapError .evaluation

def evaluateFrom (start : Nat) : List Batch → Except ModelError (List Evaluation)
  | [] => .ok []
  | batch :: batches =>
    match m.bound.evaluate batch with
    | .error e => .error (.partition start e)
    | .ok evaluation => (evaluateFrom (start + 1) batches).map (evaluation :: ·)

/-- Evaluates all batches in order; the first that fails is reported with its position. -/
def evaluatePartitions (batches : List Batch) : Except ModelError (List Evaluation) :=
  m.evaluateFrom 0 batches

end Model

end ModelFormula
