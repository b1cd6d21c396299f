import ModelFormula.Proofs.CombinationCells
import ModelFormula.Proofs.OutputLayout
import ModelFormula.Proofs.Reevaluation

/-! # The columns of an interaction with categories

Names, combinations and cells of such an interaction are told by three passes over its operands.
They agree: the column for a combination of levels has the name that spells these levels, in the
design matrix as in the frame, and its cells multiply the numbers with one mark for every category,
in the order of the operands. In every row with declared labels, exactly one column has no mark of
zero, and its name spells the labels of the row.
-/

namespace ModelFormula

def Batch.label? (batch : Batch) (row : Nat) (name : String) : Option String :=
  (batch.column? name).bind (Column.label? row)

/-! ## Marks -/

/-- For every category, whether it has the level of a combination. -/
def marks (codes combination : List Nat) : List Float :=
  List.zipWith (fun code level => indicator (code == level)) codes combination

section Marks

variable {codes combination : List Nat}

theorem forall_marks_iff (h : codes.length = combination.length) :
    (∀ mark ∈ marks codes combination, mark = 1) ↔ combination = codes := by
  induction codes generalizing combination with
  | nil =>
    obtain rfl := List.eq_nil_of_length_eq_zero h.symm
    simp [marks]
  | cons code codes ih =>
    cases combination with
    | nil => cases h
    | cons level combination =>
      have hfirst : indicator (code == level) = 1 ↔ level = code := by
        by_cases he : code = level
        · simp [he, indicator]
        · have hzero : (0 : Float) ≠ 1 := by decide
          simp [he, Ne.symm he, indicator, hzero]
      rw [marks, List.zipWith_cons_cons, List.forall_mem_cons, hfirst, List.cons.injEq,
        ← ih (Nat.succ.inj h), marks]

theorem eq_zero_or_one_of_mem_marks {mark : Float} (h : mark ∈ marks codes combination) :
    mark = 0 ∨ mark = 1 := by
  unfold marks at h
  obtain ⟨i, hi, rfl⟩ := List.mem_iff_getElem.mp h
  rw [List.getElem_zipWith]
  unfold indicator
  split
  · exact .inr rfl
  · exact .inl rfl

theorem zero_mem_marks (h : codes.length = combination.length) (hne : combination ≠ codes) :
    0 ∈ marks codes combination := by
  by_contra hzero
  apply hne
  apply (forall_marks_iff h).mp
  intro mark hmark
  rcases eq_zero_or_one_of_mem_marks hmark with rfl | hone
  · exact absurd hmark hzero
  · exact hone

end Marks

/-! ## The operands of a column -/

namespace Term

/-- The part of an operand in the name of the column that a row has its labels in. -/
def spelling (s : Schema) (batch : Batch) (row : Nat) (t : Term) : String :=
  match t.levels? s with
  | some _ => t.label ++ "_" ++ (batch.label? row t.label).getD ""
  | none => t.label

/-- The factors of a cell, in the order of the operands: the value of a number, and the next mark
for a category. -/
def factorsAt (s : Schema) (batch : Batch) (row : Nat) : List Term → List Float → List Float
  | [], _ => []
  | t :: terms, marks =>
    match t.levels? s, marks with
    | none, marks => t.value batch row :: factorsAt s batch row terms marks
    | some _, mark :: marks => mark :: factorsAt s batch row terms marks
    | some _, [] => []

variable {s : Schema} {batch : Batch} {p : TermPlan} {row : Nat} {terms : List Term}
  {operands : List Operand}

theorem mem_factorsAt {mark : Float} {marks : List Float}
    (h : marks.length = (levelCounts s terms).length) (hmark : mark ∈ marks) :
    mark ∈ factorsAt s batch row terms marks := by
  induction terms generalizing marks with
  | nil =>
    rw [List.eq_nil_of_length_eq_zero h] at hmark
    cases hmark
  | cons t terms ih =>
    cases hlevels : t.levels? s with
    | none =>
      rw [levelCounts, List.filterMap_cons_none hlevels] at h
      simp only [factorsAt, hlevels]
      exact List.mem_cons_of_mem _ (ih h hmark)
    | some levels =>
      rw [levelCounts, List.filterMap_cons_some hlevels] at h
      cases marks with
      | nil => cases h
      | cons first marks =>
        simp only [factorsAt, hlevels]
        rcases List.mem_cons.mp hmark with rfl | hmark
        · exact List.mem_cons_self
        · exact List.mem_cons_of_mem _ (ih (Nat.succ.inj h) hmark)

theorem Planned.computes_of_interaction {t : Term} (h : Planned s t p)
    (hk : p.kind = .factorInteraction operands) : ∃ terms, t = .interaction terms ∧
      List.Forall₂ (PlannedOperand s) terms operands ∧
        p.Computes ((Operand.combinations operands).map fun codes =>
          (outputName terms operands codes, .interaction operands codes)) := by
  cases h with
  | number | category | function => cases hk
  | @interaction terms others _ hoperands =>
    cases hnumbers : allNumeric? others with
    | some xs =>
      rw [interactionPlan, hnumbers] at hk
      cases hk
    | none =>
      obtain rfl : others = operands := by
        rw [interactionPlan, hnumbers] at hk
        exact PlanKind.factorInteraction.inj hk
      exact ⟨terms, rfl, hoperands, computes_interactionPlan hnumbers⟩

theorem length_combinations (h : List.Forall₂ (PlannedOperand s) terms operands) :
    (Operand.combinations operands).length = (levelCounts s terms).prod := by
  rw [Operand.combinations, ← levelCounts_eq h, length_levelCombinations]

theorem getElem?_combinations {combination : List Nat}
    (h : List.Forall₂ (PlannedOperand s) terms operands)
    (hc : List.Forall₂ (· < ·) combination (levelCounts s terms)) :
    (Operand.combinations operands)[radixPosition (levelCounts s terms) combination]? =
      some combination := by
  rw [Operand.combinations, ← levelCounts_eq h, getElem?_levelCombinations hc]

end Term

namespace Evaluation

open Term (PlannedOperand spelling factorsAt)

variable {f : Formula} {s : Schema} {b : BoundFormula} {batch : Batch} {e : Evaluation}
  {p : TermPlan} {before after : List TermPlan} {terms : List Term} {operands : List Operand}
  {codes combination : List Nat} {row j : Nat}

/-- The values that a cell multiplies are those of its terms and its marks. -/
theorem operandValues_eq_factorsAt (he : b.evaluate batch = .ok e)
    (hoperands : List.Forall₂ (PlannedOperand b.input) terms operands)
    (hused : ∀ i ∈ operands.flatMap Operand.columns, i ∈ b.usedColumns)
    (hcodes : e.codesAt row operands = codes.map some)
    (hlength : codes.length = combination.length) :
    e.operandValues row operands combination =
      factorsAt b.input batch row terms (marks codes combination) := by
  induction hoperands generalizing codes combination with
  | nil => rfl
  | @cons term operand terms operands hoperand _ ih =>
    rw [List.flatMap_cons, List.forall_mem_append] at hused
    cases hoperand with
    | @number _ x hx =>
      have hvalue : e.value row x = term.value batch row :=
        Term.eval_of_numericExpr hx fun i hi _ hf hlevels =>
          BoundFormula.number_of_evaluate he (hused.1 i hi) hf hlevels
      simp only [operandValues, factorsAt, Term.levels?_of_number hx, hvalue]
      exact congrArg _ (ih hused.2 hcodes hlength)
    | @factor i field levels hget hlevels =>
      rw [codesAt_factor] at hcodes
      cases codes with
      | nil => cases hcodes
      | cons code codes =>
        cases combination with
        | nil => cases hlength
        | cons level combination =>
          rw [List.map_cons, List.cons.injEq] at hcodes
          have hterm := Term.levels?_of_factor (List.mem_of_getElem? hget) hlevels
          simp only [operandValues, marks, List.zipWith_cons_cons, factorsAt, hterm,
            List.head?_cons, List.tail_cons, indicatorOf_of_code hcodes.1]
          exact congrArg _ (ih hused.2 hcodes.2 (Nat.succ.inj hlength))

/-- The column of the labels of a row is named by these labels. -/
theorem outputParts_eq_spelling
    (hoperands : List.Forall₂ (PlannedOperand b.input) terms operands)
    (h : b.HasLevels batch row operands codes) :
    outputParts (terms.zip operands) codes = terms.map (spelling b.input batch row) := by
  induction hoperands generalizing codes with
  | nil => rfl
  | @cons term operand terms operands hoperand _ ih =>
    cases hoperand with
    | number hx =>
      simp only [List.zip_cons_cons, outputParts, List.map_cons, spelling,
        Term.levels?_of_number hx]
      exact congrArg _ (ih h)
    | @factor i field levels hget hlevels =>
      obtain ⟨code, codes, ⟨label, hlabel, hlevel⟩, hrest, rfl⟩ := List.forall₂_cons_left_iff.mp h
      have hterm := Term.levels?_of_factor (List.mem_of_getElem? hget) hlevels
      have hread : batch.label? row field.name = some label := by
        rwa [BoundFormula.label?, hget, Option.bind_some] at hlabel
      simp only [List.zip_cons_cons, outputParts, List.head?_cons, List.tail_cons,
        Option.bind_some, hlevel, List.map_cons, spelling, hterm, Term.label_variable, hread]
      exact congrArg _ (ih hrest)

/-! ## The places of the columns -/

/-- An interaction is not the response, so its slots stand after those of the plans before it. -/
theorem getElem?_frameSlots (hb : f.bind s = .ok b) (he : b.evaluate batch = .ok e)
    (h : b.predictors = before ++ p :: after) (hk : p.kind = .factorInteraction operands)
    (hj : j < (e.slots p).length) :
    e.frameSlots[((b.upTo before).plans.flatMap TermPlan.outputs).length + j]? =
      (e.slots p)[j]? := by
  obtain ⟨rfl, -, -⟩ := BoundFormula.evaluate_eq_ok_iff.mp he
  have hp : p ∈ e.bound.readers := List.mem_append_right _ (by simp [h])
  obtain ⟨terms, hterm, -, -⟩ := (e.bound.planned_of_mem_readers hb hp).computes_of_interaction hk
  have hne : e.bound.response.map TermPlan.term ≠ some p.term := by
    intro heq
    obtain ⟨q, hq, hqp⟩ := Option.map_eq_some_iff.mp heq
    obtain ⟨t, hshape, hplanned⟩ := BoundFormula.planned_response_of_bind hb hq
    rw [← hplanned.term_eq, hqp, hterm] at hshape
    rcases hshape with ⟨_, hn⟩ | ⟨_, _, hn⟩ <;> cases hn
  have hplans : ∃ rest, e.bound.plans = (e.bound.upTo before).plans ++ p :: rest := by
    refine ⟨after.filter fun plan =>
      decide (e.bound.response.map TermPlan.term ≠ some plan.term), ?_⟩
    rw [BoundFormula.plans, h, outputPlans, List.filter_append, List.filter_cons,
      if_pos (decide_eq_true hne), ← List.append_assoc]
    rfl
  obtain ⟨rest, hrest⟩ := hplans
  rw [frameSlots, hrest]
  refine getElem?_flatMap_slots (fun q hq => .of_evaluate hb he ?_) hj
  apply e.bound.mem_readers_of_mem_plans
  rw [hrest]
  exact List.mem_append_left _ hq

/-- The columns at two positions of the design matrix and of the frame have this name, and so has
the field of the output schema. -/
structure Named (e : Evaluation) (encoding : Encoding) (column field : Nat) (name : String) :
    Prop where

  design : (e.x encoding).names[column]? = some name

  output : e.bound.output.fields[field]? = some ⟨name, .f64⟩

  frame : e.frame.columns[field]?.map Prod.fst = some name

structure HoldsAt (e : Evaluation) (encoding : Encoding) (row column field : Nat)
    (value : Float) : Prop where

  design : (e.x encoding).get? row column = some value

  frame : e.frame.columns[field]?.map (fun c => c.2.number row) = some value

/-- The columns of an interaction with categories, which begin at `first` in the design matrix and
at `start` in the frame, in a row that has the levels with these codes. -/
structure InteractionColumns (s : Schema) (batch : Batch) (e : Evaluation) (encoding : Encoding)
    (first start row : Nat) (p : TermPlan) (terms : List Term) (codes : List Nat) : Prop where

  width : (DesignColumn.ofPlan encoding p).length = (Term.levelCounts s terms).prod

  outputs : p.outputs.length = (Term.levelCounts s terms).prod

  codes_lt : List.Forall₂ (· < ·) codes (Term.levelCounts s terms)

  combination : ∀ j < (Term.levelCounts s terms).prod, ∃ combination,
    List.Forall₂ (· < ·) combination (Term.levelCounts s terms) ∧
      radixPosition (Term.levelCounts s terms) combination = j

  named : ∀ {combination : List Nat},
    List.Forall₂ (· < ·) combination (Term.levelCounts s terms) →
      ∃ parts, Term.Spells s terms combination parts ∧
        e.Named encoding (first + radixPosition (Term.levelCounts s terms) combination)
          (start + radixPosition (Term.levelCounts s terms) combination)
          (String.intercalate "::" parts)

  holds : ∀ {combination : List Nat},
    List.Forall₂ (· < ·) combination (Term.levelCounts s terms) →
      e.HoldsAt encoding row (first + radixPosition (Term.levelCounts s terms) combination)
        (start + radixPosition (Term.levelCounts s terms) combination)
        (productOf (factorsAt s batch row terms (marks codes combination)))

  own_named : e.Named encoding (first + radixPosition (Term.levelCounts s terms) codes)
    (start + radixPosition (Term.levelCounts s terms) codes)
    (String.intercalate "::" (terms.map (spelling s batch row)))

  own : ∀ {combination : List Nat},
    List.Forall₂ (· < ·) combination (Term.levelCounts s terms) →
      ((∀ mark ∈ marks codes combination, mark = 1) ↔
        radixPosition (Term.levelCounts s terms) combination =
          radixPosition (Term.levelCounts s terms) codes)

  other : ∀ {combination : List Nat},
    List.Forall₂ (· < ·) combination (Term.levelCounts s terms) →
      radixPosition (Term.levelCounts s terms) combination ≠
        radixPosition (Term.levelCounts s terms) codes →
      0 ∈ factorsAt s batch row terms (marks codes combination)

section Columns

variable {columns : List (String × DesignColumn)} {c : String × DesignColumn} {encoding : Encoding}
  (hb : f.bind s = .ok b) (he : b.evaluate batch = .ok e)
  (h : b.predictors = before ++ p :: after) (hk : p.kind = .factorInteraction operands)
  (hcolumns : p.Computes columns) (hc : columns[j]? = some c)

include hcolumns hc

theorem getElem?_slots_of_computes :
    (e.slots p)[j]? = some (Term.computed c.1, e.computed c.2) := by
  rw [slots_of_computes hcolumns, List.getElem?_map, hc, Option.map_some]

include hb he h hk

theorem getElem?_frameSlots_of_computes :
    e.frameSlots[((b.upTo before).plans.flatMap TermPlan.outputs).length + j]? =
      some (Term.computed c.1, e.computed c.2) := by
  have hslot := getElem?_slots_of_computes (e := e) hcolumns hc
  rw [getElem?_frameSlots hb he h hk (List.getElem?_eq_some_iff.mp hslot).1, hslot]

theorem named_of_computes : e.Named encoding (((b.upTo before).designColumns encoding).length + j)
    (((b.upTo before).plans.flatMap TermPlan.outputs).length + j) c.1 := by
  have hslot := getElem?_frameSlots_of_computes hb he h hk hcolumns hc
  obtain ⟨rfl, -, -⟩ := BoundFormula.evaluate_eq_ok_iff.mp he
  constructor
  · rw [names_x, List.getElem?_map]
    rw [BoundFormula.getElem?_designColumns h (hcolumns.design encoding ▸ hc), Option.map_some]
  · rw [fields_output hb, List.getElem?_map, hslot]
    rfl
  · rw [columns_frame, List.getElem?_map, hslot]
    rfl

theorem holdsAt_of_computes (hrow : row < batch.rows) :
    e.HoldsAt encoding row (((b.upTo before).designColumns encoding).length + j)
      (((b.upTo before).plans.flatMap TermPlan.outputs).length + j) (e.cell c.2 row) := by
  have hslot := getElem?_frameSlots_of_computes hb he h hk hcolumns hc
  obtain ⟨rfl, hrows, -⟩ := BoundFormula.evaluate_eq_ok_iff.mp he
  rw [← hrows] at hrow
  constructor
  · exact get?_x_predictor hrow h (hcolumns.design encoding ▸ hc)
  · rw [columns_frame, List.getElem?_map, hslot]
    simp [computed, Column.number, hrow]

end Columns

end Evaluation

end ModelFormula
