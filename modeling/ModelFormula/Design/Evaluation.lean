import ModelFormula.Design.Columns
import ModelFormula.Design.Matrix
import ModelFormula.Design.Source

/-! # Evaluating a bound formula

A bound formula and the decoded columns of one batch give the response as one column, the
predictors as a design matrix, and the model frame, a batch with the output schema. Every cell
depends on its row alone, and what is missing in a source is missing in all that is computed from
it.
-/

namespace ModelFormula

/-- A bound formula with one decoded source for every input field that it reads. -/
structure Evaluation where
  bound : BoundFormula
  rows : Nat
  sources : List (Option Source)
  size_eq : ∀ source, some source ∈ sources → source.size = rows

/-- Reads the columns that a bound formula needs from a batch. -/
def BoundFormula.evaluate (b : BoundFormula) (batch : Batch) :
    Except EvaluationError Evaluation :=
  match h : Source.decodeAll batch b.usedColumns 0 b.input.fields with
  | .error e => .error e
  | .ok sources => .ok ⟨b, batch.rows, sources, Source.size_of_decodeAll h⟩

def indicator (hit : Bool) : Float := if hit then 1 else 0

namespace Evaluation

variable (e : Evaluation)

def source? (index : Nat) : Option Source := e.sources[index]?.join

def number (row index : Nat) : Float :=
  match e.source? index with
  | some (.numeric column) => column.number row
  | _ => missing

def code? (row index : Nat) : Option Nat :=
  match e.source? index with
  | some (.factor codes) => codes[row]?.join
  | _ => none

def value (row : Nat) (expr : Expr) : Float := expr.eval (e.number row)

/-- Whether a source has this code in a row, as a number. -/
def indicatorOf (row index : Nat) (level : Option Nat) : Float :=
  match e.code? row index, level with
  | some code, some level => indicator (code == level)
  | _, _ => missing

/-- The values of the operands of an interaction in a row, for the column of these codes. -/
def operandValues (row : Nat) : List Operand → List Nat → List Float
  | [], _ => []
  | .numeric expr :: operands, codes => e.value row expr :: operandValues row operands codes
  | .factor column _ :: operands, codes =>
    e.indicatorOf row column codes.head? :: operandValues row operands codes.tail

def cell (column : DesignColumn) (row : Nat) : Float :=
  match column with
  | .intercept => 1
  | .numeric expr => e.value row expr
  | .code index => ((e.code? row index).map Float.ofNat).getD missing
  | .indicator index level => e.indicatorOf row index (some level)
  | .interaction operands codes => productOf (e.operandValues row operands codes)

def x (encoding : Encoding) : Matrix :=
  .ofColumns e.rows ((e.bound.designColumns encoding).map fun (name, column) =>
    (name, e.cell column))

def computed (column : DesignColumn) : Column :=
  .float64 ((Array.range e.rows).map fun row => some (e.cell column row))

/-- A numeric column as it came. -/
def passed (index : Nat) : Column :=
  match e.source? index with
  | some (.numeric column) => column
  | _ => e.computed (.numeric (.column index))

def codes (index : Nat) : Array (Option Nat) :=
  (Array.range e.rows).map fun row => e.code? row index

/-- The response: a numeric column as it came, a function as numbers, a category as codes. -/
def y : Except EvaluationError Column :=
  match e.bound.response with
  | none => .error .noResponse
  | some plan =>
    match plan.kind with
    | .numeric (.column index) => .ok (e.passed index)
    | .numeric expr => .ok (e.computed (.numeric expr))
    | .categorical index _ => .ok (.integer .i32 ((e.codes index).map (·.map Int.ofNat)))
    | .factorInteraction _ => .error (.unsupportedResponse plan.term)

def outputColumns (plan : TermPlan) : List Column :=
  match plan.kind with
  | .numeric (.column index) => [e.passed index]
  | .numeric expr => [e.computed (.numeric expr)]
  | .categorical index levels =>
    [.dictionary .i32 (e.codes index) (.text .short (levels.map some).toArray)]
  | .factorInteraction operands =>
    (Operand.combinations operands).map fun codes => e.computed (.interaction operands codes)

@[simp] theorem size_computed (column : DesignColumn) : (e.computed column).size = e.rows := by
  simp [computed, Column.size]

@[simp] theorem size_codes (index : Nat) : (e.codes index).size = e.rows := by
  simp [codes]

@[simp] theorem size_passed (index : Nat) : (e.passed index).size = e.rows := by
  unfold passed
  split
  · next column h =>
    have hs : e.sources[index]? = some (some (.numeric column)) := Option.join_eq_some_iff.mp h
    exact e.size_eq (.numeric column) (List.mem_of_getElem? hs)
  · simp

theorem size_of_mem_outputColumns {plan : TermPlan} {column : Column}
    (h : column ∈ e.outputColumns plan) : column.size = e.rows := by
  unfold outputColumns at h
  split at h
  · rw [List.mem_singleton.mp h, size_passed]
  · rw [List.mem_singleton.mp h, size_computed]
  · rw [List.mem_singleton.mp h, Column.size, size_codes]
  · obtain ⟨codes, -, rfl⟩ := List.mem_map.mp h
    exact e.size_computed _

theorem size_of_y {column : Column} (h : e.y = .ok column) : column.size = e.rows := by
  unfold y at h
  split at h
  · cases h
  · split at h
    · cases h
      exact e.size_passed _
    · cases h
      exact e.size_computed _
    · cases h
      simp [Column.size]
    · cases h

/-- The model frame: the columns of the output schema, in order. Numeric columns are passed on,
categories are dictionaries of their declared levels, and all else is computed. -/
def frame : Batch where
  rows := e.rows
  columns := e.bound.plans.flatMap fun plan =>
    (plan.outputs.map Field.name).zip (e.outputColumns plan)
  size_eq := by
    intro column h
    obtain ⟨plan, -, hp⟩ := List.mem_flatMap.mp h
    exact e.size_of_mem_outputColumns (List.of_mem_zip hp).2

end Evaluation

end ModelFormula
