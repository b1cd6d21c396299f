import ModelFormula.Formula.Error
import ModelFormula.Plan.Basic

/-! # The plan of a term

A term is planned against a schema. A category may stand alone or as an operand of an
interaction; everywhere else a number is needed. A column of texts is never usable.
-/

namespace ModelFormula

namespace Schema

/-- The position and the field of a column that a term may use. -/
def lookup (s : Schema) (name : String) : Except FormulaError (Nat × Field) :=
  match s.indexOf? name, s.field? name with
  | some index, some field =>
    if field.type = .string then .error (.unsupportedColumn field) else .ok (index, field)
  | _, _ => .error (.unresolvedColumn name)

end Schema

namespace Term

mutual

def numericExpr (s : Schema) : Term → Except FormulaError Expr
  | .variable name => do
    let (index, field) ← s.lookup name
    if field.type.isCategorical then
      .error (.invalidTerm (.variable name) (.categoryAsNumber name))
    else .ok (.column index)
  | .function name arg =>
    match Elementwise.ofName? name with
    | none => .error (.unknownFunction name)
    | some f => (numericExpr s arg).map (.apply f)
  | .interaction operands =>
    if operands.length < 2 then .error (.invalidTerm (.interaction operands) .notNumeric)
    else (numericExprs s operands).map .product
  | .crossing operands => .error (.invalidTerm (.crossing operands) .notNumeric)
  | .dot => .error (.invalidTerm .dot .notNumeric)
  | .intercept => .error (.invalidTerm .intercept .notNumeric)

def numericExprs (s : Schema) : List Term → Except FormulaError (List Expr)
  | [] => .ok []
  | term :: terms => do
    let e ← numericExpr s term
    let es ← numericExprs s terms
    return e :: es

end

/-- The operand of an interaction: a factor if it is a category, else a number. -/
def operand (s : Schema) (term : Term) : Except FormulaError Operand :=
  match term with
  | .variable name => do
    let (index, field) ← s.lookup name
    match field.type.levels? with
    | some levels => return .factor index levels
    | none => return .numeric (.column index)
  | term => (numericExpr s term).map .numeric

def computed (name : String) : Field := { name, type := .f64 }

/-- The expressions of operands none of which is a factor. -/
def allNumeric? : List Operand → Option (List Expr)
  | [] => some []
  | .numeric e :: operands => (allNumeric? operands).map (e :: ·)
  | .factor _ _ :: _ => none

def interactionPlan (terms : List Term) (operands : List Operand) : TermPlan :=
  let term := .interaction terms
  match allNumeric? operands with
  | some exprs => { term, kind := .numeric (.product exprs), outputs := [computed term.label] }
  | none =>
    { term
      kind := .factorInteraction operands
      outputs := (Operand.combinations operands).map fun codes =>
        computed (outputName terms operands codes) }

/-- The plan of a term, without looking at the place where it stands. -/
def plan (s : Schema) (term : Term) : Except FormulaError TermPlan :=
  match term with
  | .variable name => do
    let (index, field) ← s.lookup name
    let kind := match field.type.levels? with
      | some levels => .categorical index levels
      | none => .numeric (.column index)
    return { term := .variable name, kind, outputs := [field] }
  | .function name arg => do
    let e ← numericExpr s (.function name arg)
    let term := .function name arg
    return { term, kind := .numeric e, outputs := [computed term.label] }
  | .interaction operands =>
    if operands.length < 2 then .error (.invalidTerm (.interaction operands) .tooFewOperands)
    else (operands.mapM (operand s)).map (interactionPlan operands)
  | term => .error (.invalidTerm term .unexpanded)

/-- The plan of a response, which is a column or a function of one. -/
def responsePlan (s : Schema) (term : Term) : Except FormulaError TermPlan :=
  match term with
  | .variable _ | .function _ _ => plan s term
  | term => .error (.invalidTerm term .responseShape)

end Term

end ModelFormula
