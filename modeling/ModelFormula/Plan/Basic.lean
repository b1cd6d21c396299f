import ModelFormula.Schema.Basic
import ModelFormula.Term.Printer
import ModelFormula.Plan.Expr
import ModelFormula.Plan.Ascending

/-! # Plans

The plan of a term says how columns of the schema become output columns: one number, one category
kept as it is, or, for an interaction with categories, one number for every combination of their
levels.
-/

namespace ModelFormula

/-- An operand of an interaction in which a category takes part. -/
inductive Operand
  | numeric (expr : Expr)
  | factor (column : Nat) (levels : List String)
  deriving Repr

inductive PlanKind
  /-- One numeric output. -/
  | numeric (expr : Expr)
  /-- One categorical output with the declared levels. -/
  | categorical (column : Nat) (levels : List String)
  /-- One numeric output for every combination of the levels of the factors. -/
  | factorInteraction (operands : List Operand)
  deriving Repr

structure TermPlan where
  term : Term
  kind : PlanKind
  outputs : List Field
  deriving Repr

namespace Operand

def levelCount? : Operand → Option Nat
  | numeric _ => none
  | factor _ levels => some levels.length

def columns : Operand → List Nat
  | numeric expr => expr.columns
  | factor column _ => [column]

end Operand

/-- All lists of codes below the given counts; the last code varies fastest. -/
def levelCombinations : List Nat → List (List Nat)
  | [] => [[]]
  | count :: counts =>
    (List.range count).flatMap fun code => (levelCombinations counts).map (code :: ·)

def Operand.combinations (operands : List Operand) : List (List Nat) :=
  levelCombinations (operands.filterMap Operand.levelCount?)

/-- The parts of an output name: the label of an operand, and for a factor also the level that
the combination has for it. -/
def outputParts : List (Term × Operand) → List Nat → List String
  | [], _ => []
  | (term, .numeric _) :: operands, codes => term.label :: outputParts operands codes
  | (term, .factor _ levels) :: operands, codes =>
    (term.label ++ "_" ++ (codes.head?.bind (levels[·]?)).getD "") ::
      outputParts operands codes.tail

def outputName (terms : List Term) (operands : List Operand) (codes : List Nat) : String :=
  String.intercalate "::" (outputParts (terms.zip operands) codes)

namespace PlanKind

/-- The positions of the columns that are read, in order of appearance. -/
def columns : PlanKind → List Nat
  | numeric expr => expr.columns
  | categorical column _ => [column]
  | factorInteraction operands => operands.flatMap Operand.columns

end PlanKind

namespace TermPlan

def sources (plan : TermPlan) : List Nat := ascending plan.kind.columns

end TermPlan

end ModelFormula
