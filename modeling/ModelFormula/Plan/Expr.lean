import ModelFormula.Elementwise.Function

/-! # Numeric expressions

An expression over the columns of a schema: a column by its position, an elementwise function, or
a product. A product multiplies from left to right and starts from one.
-/

namespace ModelFormula

inductive Expr
  /-- The numeric column at this position of the schema. -/
  | column (index : Nat)
  | apply (f : Elementwise) (arg : Expr)
  | product (factors : List Expr)
  deriving Repr

/-- The product from left to right, starting from one. -/
def productOf (xs : List Float) : Float := xs.foldl (· * ·) 1

namespace Expr

mutual

def eval (value : Nat → Float) : Expr → Float
  | .column index => value index
  | .apply f arg => f.apply (eval value arg)
  | .product factors => productOf (evalAll value factors)

def evalAll (value : Nat → Float) : List Expr → List Float
  | [] => []
  | e :: es => eval value e :: evalAll value es

end

mutual

def columns : Expr → List Nat
  | .column index => [index]
  | .apply _ arg => columns arg
  | .product factors => columnsAll factors

def columnsAll : List Expr → List Nat
  | [] => []
  | e :: es => columns e ++ columnsAll es

end

theorem evalAll_eq (value : Nat → Float) (es : List Expr) :
    evalAll value es = es.map (eval value) := by
  induction es with
  | nil => rfl
  | cons e es ih => simp [evalAll, ih]

theorem columnsAll_eq (es : List Expr) : columnsAll es = es.flatMap columns := by
  induction es with
  | nil => rfl
  | cons e es ih => simp [columnsAll, ih]

end Expr

end ModelFormula
