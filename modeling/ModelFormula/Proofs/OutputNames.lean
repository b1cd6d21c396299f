import ModelFormula.Proofs.Planning

/-! # Names of outputs

The names that a term brings into the output, told from the term and the schema without a plan.
An interaction with categories brings one name for every choice of their levels.
-/

namespace ModelFormula

/-- All choices of one element from each list; the last element varies fastest. -/
def choices {α : Type} : List (List α) → List (List α)
  | [] => [[]]
  | xs :: xss => xs.flatMap fun x => (choices xss).map (x :: ·)

namespace Term

/-- How an operand shows in the names of an interaction; a category shows with its levels. -/
def spellings (s : Schema) : Term → List String
  | .variable name =>
    match (s.field? name).bind fun field => field.type.levels? with
    | some levels => levels.map fun level => name ++ "_" ++ level
    | none => [name]
  | term => [term.label]

def outputNames (s : Schema) : Term → List String
  | .variable name => [name]
  | .function name arg => [label (.function name arg)]
  | .interaction operands =>
    (choices (operands.map (spellings s))).map fun parts => String.intercalate "::" parts
  | .crossing _ | .dot | .intercept => []

variable {s : Schema} {t : Term} {p : TermPlan} {terms : List Term} {operands : List Operand}

theorem flatMap_range_getElem? {α : Type} (levels : List String) (f : String → List α) :
    ((List.range levels.length).flatMap fun i => f (levels[i]?.getD "")) = levels.flatMap f := by
  have hlevels : (List.range levels.length).map (fun i => levels[i]?.getD "") = levels := by
    refine List.ext_getElem (by simp) fun i hi hi' => ?_
    simp [hi']
  rw [← List.flatMap_map, hlevels]

theorem spellings_of_factor {field : Field} {levels : List String} (hf : field ∈ s.fields)
    (hl : field.type.levels? = some levels) :
    spellings s (.variable field.name) = levels.map fun level => field.name ++ "_" ++ level := by
  simp [spellings, Schema.field?_eq_some_iff.mpr ⟨hf, rfl⟩, hl]

theorem spellings_of_number {e : Expr} (h : numericExpr s t = .ok e) :
    spellings s t = [t.label] := by
  by_cases ht : ∃ name, t = .variable name
  · obtain ⟨name, rfl⟩ := ht
    obtain ⟨i, field, hget, rfl, -, hl, -⟩ := numericExpr_column_eq_ok_iff.mp h
    simp [spellings, Schema.field?_eq_some_iff.mpr ⟨List.mem_of_getElem? hget, rfl⟩, hl]
  · rw [not_exists] at ht
    cases t <;> first | rfl | exact absurd rfl (ht _)

/-- The parts of the output names are the choices of spellings, in the same order. -/
theorem map_outputParts_combinations (h : List.Forall₂ (PlannedOperand s) terms operands) :
    (Operand.combinations operands).map (outputParts (terms.zip operands)) =
      choices (terms.map (spellings s)) := by
  unfold Operand.combinations
  induction h with
  | nil => rfl
  | @cons t o terms operands ht h ih =>
    rw [List.map_cons, choices, ← ih]
    cases ht with
    | @factor i field levels hget hl =>
      rw [spellings_of_factor (List.mem_of_getElem? hget) hl, List.flatMap_map,
        ← flatMap_range_getElem?]
      -- The first code of a combination picks the level of this factor.
      simp only [List.filterMap_cons, Operand.levelCount?, levelCombinations, List.map_flatMap,
        List.map_map, List.zip_cons_cons]
      simp only [Function.comp_def, outputParts, label_variable, List.head?_cons, List.tail_cons,
        Option.bind_some]
    | number he =>
      rw [spellings_of_number he, List.flatMap_singleton, List.map_map]
      rfl

theorem eq_map_of_allNumeric? {es : List Expr} (h : allNumeric? operands = some es) :
    operands = es.map .numeric := by
  induction operands generalizing es with
  | nil =>
    cases h
    rfl
  | cons o operands ih =>
    cases o with
    | numeric e =>
      obtain ⟨es', hes, rfl⟩ := Option.map_eq_some_iff.mp h
      rw [List.map_cons, ← ih hes]
    | factor => cases h

theorem choices_spellings_of_numbers {es : List Expr}
    (h : List.Forall₂ (PlannedOperand s) terms (es.map .numeric)) :
    choices (terms.map (spellings s)) = [terms.map label] := by
  induction terms generalizing es with
  | nil => rfl
  | cons t terms ih =>
    cases es with
    | nil => cases h
    | cons e es =>
      obtain ⟨hfirst, hrest⟩ := List.forall₂_cons.mp h
      cases hfirst with
      | number he => rw [List.map_cons, choices, spellings_of_number he, ih hrest]; rfl

theorem intercalate_map_label (terms : List Term) :
    String.intercalate "::" (terms.map label) = label (.interaction terms) := by
  rw [← String.toList_inj, String.toList_intercalate, List.map_map]
  simp [label, charsWith, charsBetween_eq, Function.comp_def]

theorem names_interactionPlan (h : List.Forall₂ (PlannedOperand s) terms operands) :
    (interactionPlan terms operands).outputs.map Field.name =
      outputNames s (.interaction terms) := by
  simp only [interactionPlan, outputNames]
  split
  · next es hes =>
    obtain rfl := eq_map_of_allNumeric? hes
    rw [choices_spellings_of_numbers h, List.map_singleton, List.map_singleton,
      intercalate_map_label]
    rfl
  · rw [← map_outputParts_combinations h, List.map_map, List.map_map]
    rfl

theorem levelsOk_computed (name : String) : (computed name).type.LevelsOk := by
  intro levels h
  cases h

theorem levelsOk_interactionPlan {field : Field}
    (h : field ∈ (interactionPlan terms operands).outputs) : field.type.LevelsOk := by
  simp only [interactionPlan] at h
  split at h
  · rw [List.mem_singleton.mp h]
    exact levelsOk_computed _
  · obtain ⟨codes, -, rfl⟩ := List.mem_map.mp h
    exact levelsOk_computed _

namespace Planned

theorem term_eq (h : Planned s t p) : p.term = t := by
  cases h with
  | number | category | function => rfl
  | interaction =>
    simp only [interactionPlan]
    split <;> rfl

theorem names_outputs (h : Planned s t p) : p.outputs.map Field.name = outputNames s t := by
  cases h with
  | number | category | function => rfl
  | interaction _ hoperands => exact names_interactionPlan hoperands

theorem levelsOk (h : Planned s t p) {field : Field} (hf : field ∈ p.outputs) :
    field.type.LevelsOk := by
  cases h with
  | number hget | category hget =>
    rw [List.mem_singleton.mp hf]
    exact s.levelsOk _ (List.mem_of_getElem? hget)
  | function =>
    rw [List.mem_singleton.mp hf]
    exact levelsOk_computed _
  | interaction => exact levelsOk_interactionPlan hf

end Planned

end Term

end ModelFormula
