import Mathlib.Algebra.Ring.Nat
import ModelFormula.Proofs.Combinations
import ModelFormula.Proofs.DesignNames

/-! # The shape of a design matrix

The plans and the encoding alone tell how the columns of a design matrix are called and how many
there are, so both are fixed once a formula is bound. The batch adds the number of rows.
-/

namespace ModelFormula

/-! ## The columns that a plan brings -/

def Encoding.columnNames (name : String) (levels : List String) : Encoding → List String
  | ordinal => [name]
  | oneHot => levels.map fun level => name ++ "_" ++ level
  | dummy => levels.tail.map fun level => name ++ "_" ++ level

namespace TermPlan

/-- The names of the columns of a predictor: those of its outputs, unless it is a category that
stands alone. -/
def columnNames (encoding : Encoding) (p : TermPlan) : List String :=
  match p.kind with
  | .categorical _ levels => p.outputs.flatMap fun field => encoding.columnNames field.name levels
  | .numeric _ | .factorInteraction _ => p.outputs.map Field.name

def columnCount (encoding : Encoding) (p : TermPlan) : Nat :=
  match p.kind with
  | .numeric _ => 1
  | .categorical _ levels => encoding.width levels.length
  | .factorInteraction operands => (operands.filterMap Operand.levelCount?).prod

end TermPlan

theorem Encoding.length_columnNames (encoding : Encoding) (name : String) (levels : List String) :
    (encoding.columnNames name levels).length = encoding.width levels.length := by
  cases encoding with
  | ordinal => rfl
  | oneHot => exact List.length_map _
  | dummy => rw [columnNames, List.length_map, List.length_tail, width]

theorem DesignColumn.names_ofCategory (encoding : Encoding) (name : String) (i : Nat)
    {levels : List String} (h : levels ≠ []) :
    (ofCategory encoding name i levels).map Prod.fst = encoding.columnNames name levels := by
  cases encoding with
  | ordinal => rfl
  | oneHot | dummy => exact Term.names_ofCategory i (by decide) h

namespace Term

variable {s : Schema} {t : Term} {p : TermPlan}

theorem columnNames_interactionPlan (encoding : Encoding) (terms : List Term)
    (operands : List Operand) : (interactionPlan terms operands).columnNames encoding =
      (interactionPlan terms operands).outputs.map Field.name := by
  unfold interactionPlan
  split <;> rfl

namespace Planned

theorem names_columns (h : Planned s t p) (encoding : Encoding) :
    (DesignColumn.ofPlan encoding p).map Prod.fst = p.columnNames encoding := by
  cases h with
  | number | function => rfl
  | @category i field levels hget hlevels =>
    have hne : levels ≠ [] := (s.levelsOk field (List.mem_of_getElem? hget) levels hlevels).1
    exact (DesignColumn.names_ofCategory encoding field.name i hne).trans (List.append_nil _).symm
  | interaction => rw [names_ofPlan_interactionPlan, columnNames_interactionPlan]

theorem length_columnNames (h : Planned s t p) (encoding : Encoding) :
    (p.columnNames encoding).length = p.columnCount encoding := by
  unfold TermPlan.columnNames TermPlan.columnCount
  cases hk : p.kind with
  | numeric x =>
    simp only [h.names_of_number hk]
    rfl
  | categorical i levels =>
    obtain ⟨field, -, -, houtputs⟩ := h.field_of_category hk
    simp only [houtputs, List.flatMap_singleton]
    exact encoding.length_columnNames field.name levels
  | factorInteraction operands =>
    obtain ⟨terms, -, houtputs⟩ := h.operands_of_interaction hk
    simp only [houtputs, List.length_map]
    exact length_levelCombinations _

end Planned

end Term

/-! ## The columns of a bound formula -/

namespace BoundFormula

variable {f : Formula} {s : Schema} {b : BoundFormula} {encoding : Encoding}

/-- The names of the columns of the design matrix, wherever the intercept is written. -/
def columnNames (b : BoundFormula) (encoding : Encoding) : List String :=
  (if .intercept ∈ b.formula.predictors then [DesignColumn.interceptName] else []) ++
    b.predictors.flatMap (TermPlan.columnNames encoding)

def columnCount (b : BoundFormula) (encoding : Encoding) : Nat :=
  (if .intercept ∈ b.formula.predictors then 1 else 0) +
    (b.predictors.map (TermPlan.columnCount encoding)).sum

theorem names_designColumns (hb : f.bind s = .ok b) (encoding : Encoding) :
    (b.designColumns encoding).map Prod.fst = b.columnNames encoding := by
  have hpredictors : (b.predictors.flatMap (DesignColumn.ofPlan encoding)).map Prod.fst =
      b.predictors.flatMap (TermPlan.columnNames encoding) := by
    rw [List.map_flatMap]
    refine List.flatMap_congr fun p hp => ?_
    exact (b.planned_of_mem_predictors hb hp).names_columns encoding
  rw [designColumns, List.map_append, hpredictors, columnNames, hasIntercept, Formula.hasIntercept]
  by_cases hi : .intercept ∈ b.formula.predictors
  · simp [hi]
  · simp [hi]

theorem length_columnNames (hb : f.bind s = .ok b) (encoding : Encoding) :
    (b.columnNames encoding).length = b.columnCount encoding := by
  have hcounts : b.predictors.map (fun p => (p.columnNames encoding).length) =
      b.predictors.map (TermPlan.columnCount encoding) := by
    refine List.map_congr_left fun p hp => ?_
    exact (b.planned_of_mem_predictors hb hp).length_columnNames encoding
  rw [columnNames, List.length_append, List.length_flatMap, hcounts, columnCount]
  split <;> rfl

end BoundFormula

/-- The plans of a bound formula and one of its design matrices: what the plans bring, how the
columns are called, and how many cells there are. -/
structure HasShape (b : BoundFormula) (height : Nat) (encoding : Encoding) (m : Matrix) :
    Prop where

  number : ∀ p ∈ b.predictors, ∀ x, p.kind = .numeric x → ∃ field, p.outputs = [field]

  category : ∀ p ∈ b.predictors, ∀ i levels, p.kind = .categorical i levels →
    ∃ field, b.input.fields[i]? = some field ∧ field.type.levels? = some levels ∧
      p.outputs = [field]

  rows : m.rows = height

  names : m.names = b.columnNames encoding

  width : m.width = b.columnCount encoding

  size : m.data.size = height * b.columnCount encoding

namespace Evaluation

variable {f : Formula} {s : Schema} {b : BoundFormula} {batch : Batch} {e : Evaluation}

theorem names_x_of_bind (hb : f.bind s = .ok b) (he : b.evaluate batch = .ok e)
    (encoding : Encoding) : (e.x encoding).names = b.columnNames encoding := by
  obtain ⟨rfl, -, -⟩ := BoundFormula.evaluate_eq_ok_iff.mp he
  rw [names_x, BoundFormula.names_designColumns hb]

theorem hasShape_x (hb : f.bind s = .ok b) (he : b.evaluate batch = .ok e) (encoding : Encoding) :
    HasShape b batch.rows encoding (e.x encoding) := by
  have hrows : (e.x encoding).rows = batch.rows :=
    (BoundFormula.evaluate_eq_ok_iff.mp he).2.1
  have hnames := names_x_of_bind hb he encoding
  have hwidth : (e.x encoding).names.length = b.columnCount encoding := by
    rw [hnames, BoundFormula.length_columnNames hb]
  constructor
  · intro p hp x hk
    have hplanned := b.planned_of_mem_predictors hb hp
    obtain ⟨field, houtputs, -⟩ := List.map_eq_singleton_iff.mp (hplanned.names_of_number hk)
    exact ⟨field, houtputs⟩
  · intro p hp i levels hk
    obtain ⟨field, -, hget, hlevels, houtputs⟩ :=
      BoundFormula.exists_category_of_mem_readers hb (List.mem_append_right _ hp) hk
    exact ⟨field, hget, hlevels, houtputs⟩
  · exact hrows
  · exact hnames
  · exact hwidth
  · rw [(e.x encoding).size_eq, hrows, hwidth]

end Evaluation

end ModelFormula
