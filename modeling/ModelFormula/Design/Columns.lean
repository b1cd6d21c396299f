import ModelFormula.Plan.Bound
import ModelFormula.Design.Encoding

/-! # The columns of a design matrix

They are fixed by the bound formula and the encoding, whatever the batch: the intercept first,
then the columns of every predictor in order.
-/

namespace ModelFormula

/-- What a column of the design matrix holds. -/
inductive DesignColumn
  | intercept
  | numeric (expr : Expr)
  /-- The code of a category. -/
  | code (column : Nat)
  /-- Whether a category has the level with this code. -/
  | indicator (column level : Nat)
  /-- The product of the operands, where a factor counts as the indicator of its code. -/
  | interaction (operands : List Operand) (codes : List Nat)
  deriving Repr

namespace DesignColumn

def interceptName : String := "Intercept"

def ofCategory (encoding : Encoding) (name : String) (column : Nat) (levels : List String) :
    List (String × DesignColumn) :=
  match encoding with
  | .ordinal => [(name, .code column)]
  | .oneHot | .dummy =>
    (levels.zipIdx.drop (levels.length - encoding.width levels.length)).map
      fun (level, position) => (name ++ "_" ++ level, .indicator column position)

def ofPlan (encoding : Encoding) (plan : TermPlan) : List (String × DesignColumn) :=
  let names := plan.outputs.map Field.name
  match plan.kind with
  | .numeric expr => names.map fun name => (name, .numeric expr)
  | .categorical column levels => ofCategory encoding (names.headD "") column levels
  | .factorInteraction operands =>
    names.zip ((Operand.combinations operands).map (.interaction operands))

end DesignColumn

def BoundFormula.designColumns (b : BoundFormula) (encoding : Encoding) :
    List (String × DesignColumn) :=
  (if b.hasIntercept then [(DesignColumn.interceptName, .intercept)] else []) ++
    b.predictors.flatMap (DesignColumn.ofPlan encoding)

end ModelFormula
