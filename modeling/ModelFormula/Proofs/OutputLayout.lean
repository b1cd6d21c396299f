import ModelFormula.Proofs.Binding
import ModelFormula.Proofs.Combinations

/-! # The layout of a bound formula

What a bound formula reads and what it brings into the output, told from the terms and the schema:
the positions that a plan reads, its output fields with their names and types, and the order of
all of them in the output schema.
-/

namespace ModelFormula

def Schema.Locates (s : Schema) : List String → List Nat → Prop :=
  List.Forall₂ fun name i => s.indexOf? name = some i

namespace Term

def levels? (s : Schema) : Term → Option (List String)
  | .variable name => (s.field? name).bind fun field => field.type.levels?
  | _ => none

/-- The parts of the name of an output: the label of an operand that is a number, and the name of a
category with the level that its code picks. -/
inductive Spells (s : Schema) : List Term → List Nat → List String → Prop where

  | nil : Spells s [] [] []

  | number {t : Term} {terms : List Term} {codes : List Nat} {parts : List String} :
      t.levels? s = none → Spells s terms codes parts →
      Spells s (t :: terms) codes (t.label :: parts)

  | factor {t : Term} {terms : List Term} {levels : List String} {level : String} {code : Nat}
      {codes : List Nat} {parts : List String} :
      t.levels? s = some levels → levels[code]? = some level → Spells s terms codes parts →
      Spells s (t :: terms) (code :: codes) ((t.label ++ "_" ++ level) :: parts)

def levelCounts (s : Schema) (terms : List Term) : List Nat :=
  (terms.filterMap (levels? s)).map List.length

end Term

/-- What a plan reads and brings into the output, told from its term. -/
structure TermPlan.LaidOut (s : Schema) (p : TermPlan) : Prop where

  increasing : p.sources.Pairwise (· < ·)

  mem_sources : ∀ i, i ∈ p.sources ↔ ∃ name ∈ p.term.columns, s.indexOf? name = some i

  column : ∀ {name : String}, p.term = .variable name →
    ∃ field, s.field? name = some field ∧ p.outputs = [field]

  function : ∀ {name : String} {arg : Term}, p.term = .function name arg →
    p.outputs = [⟨p.term.label, .f64⟩]

  numbers : ∀ {terms : List Term}, p.term = .interaction terms → Term.levelCounts s terms = [] →
    p.outputs = [⟨p.term.label, .f64⟩]

  combinations : ∀ {terms : List Term}, p.term = .interaction terms →
    Term.levelCounts s terms ≠ [] →
    p.outputs.length = (Term.levelCounts s terms).prod ∧ ∀ field ∈ p.outputs, field.type = .f64

  combination : ∀ {terms : List Term} {codes : List Nat}, p.term = .interaction terms →
    Term.levelCounts s terms ≠ [] →
    List.Forall₂ (· < ·) codes (Term.levelCounts s terms) →
    ∃ parts, Term.Spells s terms codes parts ∧
      p.outputs[radixPosition (Term.levelCounts s terms) codes]? =
        some ⟨String.intercalate "::" parts, .f64⟩

/-- The plans of a bound formula and its output schema, told from the formula. -/
structure BoundFormula.LaidOut (f : Formula) (s : Schema) (b : BoundFormula) : Prop where

  resolved : f.expand s = .ok b.formula

  response : b.response.map TermPlan.term = b.formula.responseTerm?

  predictors : b.predictors.map TermPlan.term = b.formula.predictors.filter (· ≠ .intercept)

  plans : ∀ p ∈ b.response.toList ++ b.predictors, p.LaidOut s

  output : b.output.fields = b.response.toList.flatMap TermPlan.outputs ++
    (b.predictors.filter fun p => decide (b.formula.responseTerm? ≠ some p.term)).flatMap
      TermPlan.outputs

  released : ∀ p ∈ b.response, p.term ∈ b.formula.predictors →
    p ∈ b.predictors ∧ ∀ field ∈ p.outputs, b.output.fields.count field = 1

namespace Term

variable {s : Schema} {t : Term} {p : TermPlan} {o : Operand} {e : Expr} {terms : List Term}
  {operands : List Operand} {codes : List Nat}

/-! ## The positions that are read -/

/-- An expression reads the columns of its term, in order of appearance. -/
theorem locates_numericExpr (h : numericExpr s t = .ok e) : s.Locates t.columns e.columns := by
  induction t using induction_parts generalizing e with
  | h t ih =>
    cases t with
    | «variable» name =>
      obtain ⟨i, field, hget, hname, -, -, rfl⟩ := numericExpr_column_eq_ok_iff.mp h
      exact .cons (Schema.indexOf?_eq_some_iff.mpr ⟨field, hget, hname⟩) .nil
    | function name arg =>
      obtain ⟨f, -, e, harg, rfl⟩ := numericExpr_function_eq_ok_iff.mp h
      rw [columns, Expr.columns]
      exact ih arg (List.mem_singleton_self arg) harg
    | interaction terms =>
      obtain ⟨-, es, hes, rfl⟩ := numericExpr_interaction_eq_ok_iff.mp h
      rw [columns, columnsAll_eq, Expr.columns, Expr.columnsAll_eq]
      have hlocates : List.Forall₂ (fun t e => s.Locates t.columns e.columns) terms es :=
        ((List.forall₂_and_left _ _).mpr ⟨ih, hes⟩).imp fun t e h => h.1 h.2
      have hmapped := List.forall₂_map_left_iff.mpr (List.forall₂_map_right_iff.mpr hlocates)
      exact List.rel_flatten hmapped
    | crossing | dot | intercept => cases h

theorem PlannedOperand.locates (h : PlannedOperand s t o) : s.Locates t.columns o.columns := by
  cases h with
  | factor hget =>
    exact .cons (Schema.indexOf?_eq_some_iff.mpr ⟨_, hget, rfl⟩) .nil
  | number he => exact locates_numericExpr he

theorem columns_interactionPlan (terms : List Term) (operands : List Operand) :
    (interactionPlan terms operands).kind.columns = operands.flatMap Operand.columns := by
  simp only [interactionPlan]
  split
  · next es hes =>
    rw [eq_map_of_allNumeric? hes, PlanKind.columns, Expr.columns, Expr.columnsAll_eq,
      List.flatMap_map]
    rfl
  · rfl

theorem Planned.locates (h : Planned s t p) : s.Locates t.columns p.kind.columns := by
  cases h with
  | number hget | category hget =>
    exact .cons (Schema.indexOf?_eq_some_iff.mpr ⟨_, hget, rfl⟩) .nil
  | function he => exact locates_numericExpr he
  | interaction _ hoperands =>
    rw [columns, columnsAll_eq, columns_interactionPlan]
    have hlocates := hoperands.imp fun _ _ h => PlannedOperand.locates h
    exact List.rel_flatten (List.forall₂_map_left_iff.mpr (List.forall₂_map_right_iff.mpr hlocates))

theorem Planned.mem_sources (h : Planned s t p) (i : Nat) :
    i ∈ p.sources ↔ ∃ name ∈ t.columns, s.indexOf? name = some i := by
  rw [TermPlan.sources, mem_ascending]
  constructor
  · exact exists_mem_of_mem_right h.locates
  · rintro ⟨name, hname, hi⟩
    obtain ⟨j, hj, hmem⟩ := exists_mem_of_mem_left h.locates hname
    obtain rfl : i = j := Option.some.inj (hi.symm.trans hmem)
    exact hj

/-! ## The outputs of a plan -/

theorem levels?_of_factor {field : Field} {levels : List String} (hf : field ∈ s.fields)
    (hl : field.type.levels? = some levels) :
    levels? s (.variable field.name) = some levels := by
  rw [levels?, Schema.field?_eq_some_iff.mpr ⟨hf, rfl⟩, Option.bind_some, hl]

theorem levels?_of_number (h : numericExpr s t = .ok e) : t.levels? s = none := by
  cases t with
  | «variable» name =>
    obtain ⟨i, field, hget, hname, -, hl, -⟩ := numericExpr_column_eq_ok_iff.mp h
    rw [levels?, Schema.field?_eq_some_iff.mpr ⟨List.mem_of_getElem? hget, hname⟩,
      Option.bind_some, hl]
  | function | interaction | crossing | dot | intercept => rfl

theorem filterMap_levelCount?_factor (i : Nat) (levels : List String) (operands : List Operand) :
    (Operand.factor i levels :: operands).filterMap Operand.levelCount? =
      levels.length :: operands.filterMap Operand.levelCount? := rfl

theorem filterMap_levelCount?_numeric (e : Expr) (operands : List Operand) :
    (Operand.numeric e :: operands).filterMap Operand.levelCount? =
      operands.filterMap Operand.levelCount? := rfl

theorem levelCounts_eq (h : List.Forall₂ (PlannedOperand s) terms operands) :
    levelCounts s terms = operands.filterMap Operand.levelCount? := by
  unfold levelCounts
  induction h with
  | nil => rfl
  | cons ht _ ih =>
    cases ht with
    | factor hget hl =>
      rw [List.filterMap_cons_some (levels?_of_factor (List.mem_of_getElem? hget) hl),
        filterMap_levelCount?_factor, List.map_cons, ih]
    | number he =>
      rw [List.filterMap_cons_none (levels?_of_number he), filterMap_levelCount?_numeric, ih]

/-- The parts that the plan gives an output are those that its codes spell. -/
theorem spells_outputParts (h : List.Forall₂ (PlannedOperand s) terms operands)
    (hcodes : List.Forall₂ (· < ·) codes (operands.filterMap Operand.levelCount?)) :
    Spells s terms codes (outputParts (terms.zip operands) codes) := by
  induction h generalizing codes with
  | nil =>
    cases hcodes
    exact .nil
  | cons ht _ ih =>
    cases ht with
    | factor hget hl =>
      rw [filterMap_levelCount?_factor] at hcodes
      obtain ⟨code, rest, hcode, hrest, rfl⟩ := List.forall₂_cons_right_iff.mp hcodes
      have hlevel := List.getElem?_eq_getElem hcode
      rw [List.zip_cons_cons, outputParts, List.head?_cons, Option.bind_some, hlevel]
      exact .factor (levels?_of_factor (List.mem_of_getElem? hget) hl) hlevel (ih hrest)
    | number he =>
      rw [filterMap_levelCount?_numeric] at hcodes
      exact .number (levels?_of_number he) (ih hcodes)

theorem allNumeric?_eq_none_iff :
    allNumeric? operands = none ↔ operands.filterMap Operand.levelCount? ≠ [] := by
  induction operands with
  | nil => simp [allNumeric?]
  | cons o operands ih =>
    cases o with
    | numeric e => rw [allNumeric?, Option.map_eq_none_iff, ih, filterMap_levelCount?_numeric]
    | factor i levels => simp [allNumeric?, filterMap_levelCount?_factor]

theorem outputs_interactionPlan_of_numbers (h : List.Forall₂ (PlannedOperand s) terms operands)
    (hnone : levelCounts s terms = []) :
    (interactionPlan terms operands).outputs = [computed (label (.interaction terms))] := by
  simp only [interactionPlan]
  split
  · rfl
  · next hoperands =>
    rw [levelCounts_eq h] at hnone
    exact absurd hnone (allNumeric?_eq_none_iff.mp hoperands)

theorem outputs_interactionPlan_of_factor (h : List.Forall₂ (PlannedOperand s) terms operands)
    (hsome : levelCounts s terms ≠ []) : (interactionPlan terms operands).outputs =
      (levelCombinations (levelCounts s terms)).map fun codes =>
        computed (outputName terms operands codes) := by
  rw [levelCounts_eq h] at hsome ⊢
  rw [interactionPlan, allNumeric?_eq_none_iff.mpr hsome]
  rfl

theorem exists_spelled_output (h : List.Forall₂ (PlannedOperand s) terms operands)
    (hsome : levelCounts s terms ≠ [])
    (hcodes : List.Forall₂ (· < ·) codes (levelCounts s terms)) : ∃ parts,
      Spells s terms codes parts ∧
        (interactionPlan terms operands).outputs[radixPosition (levelCounts s terms) codes]? =
          some (computed (String.intercalate "::" parts)) := by
  refine ⟨outputParts (terms.zip operands) codes, ?_, ?_⟩
  · exact spells_outputParts h (levelCounts_eq h ▸ hcodes)
  · rw [outputs_interactionPlan_of_factor h hsome, List.getElem?_map,
      getElem?_levelCombinations hcodes, Option.map_some]
    rfl

namespace Planned

theorem laidOut (h : Planned s t p) : p.LaidOut s := by
  obtain rfl := h.term_eq
  constructor
  · exact pairwise_ascending _
  · exact h.mem_sources
  · intro name ht
    rw [ht] at h
    cases h with
    | number hget | category hget =>
      exact ⟨_, Schema.field?_eq_some_iff.mpr ⟨List.mem_of_getElem? hget, rfl⟩, rfl⟩
  · intro name arg ht
    rw [ht] at h ⊢
    cases h with
    | function => rfl
  · intro terms ht hnone
    rw [ht] at h ⊢
    cases h with
    | interaction _ hoperands => exact outputs_interactionPlan_of_numbers hoperands hnone
  · intro terms ht hsome
    rw [ht] at h
    cases h with
    | interaction _ hoperands =>
      rw [outputs_interactionPlan_of_factor hoperands hsome]
      constructor
      · rw [List.length_map, length_levelCombinations]
      · rintro field hfield
        obtain ⟨codes, -, rfl⟩ := List.mem_map.mp hfield
        rfl
  · intro terms codes ht hsome hcodes
    rw [ht] at h
    cases h with
    | interaction _ hoperands => exact exists_spelled_output hoperands hsome hcodes

end Planned

end Term

namespace Formula

variable {f : Formula} {s : Schema} {b : BoundFormula} {p : TermPlan}

theorem map_term_eq {terms : List Term} {plans : List TermPlan}
    (h : List.Forall₂ (Term.Planned s) terms plans) : plans.map TermPlan.term = terms := by
  induction h with
  | nil => rfl
  | cons hp _ ih => rw [List.map_cons, hp.term_eq, ih]

theorem mem_predictors_of_response (h : f.bind s = .ok b) (hp : p ∈ b.response)
    (hagain : p.term ∈ b.formula.predictors) : p ∈ b.predictors := by
  obtain ⟨-, -, -, hpredictors, -⟩ := bind_iff.mp h
  have hplanned : Term.Planned s p.term p :=
    BoundFormula.planned_of_mem_readers h (List.mem_append_left _ (Option.mem_toList.mpr hp))
  have hne : p.term ≠ .intercept := by
    intro hterm
    rw [hterm] at hplanned
    cases hplanned
  have hmem : p.term ∈ b.formula.predictors.filter (· ≠ .intercept) :=
    List.mem_filter.mpr ⟨hagain, decide_eq_true hne⟩
  obtain ⟨q, hq, hplan⟩ := exists_mem_of_mem_left hpredictors hmem
  exact hplanned.unique hplan ▸ hq

/-- A bound formula has the layout that its terms and the schema prescribe. -/
theorem bind_laidOut (h : f.bind s = .ok b) : b.LaidOut f s := by
  obtain ⟨hexpand, -, hresponse, hpredictors, houtput⟩ := bind_iff.mp h
  have hplanned : List.Forall₂ (Term.Planned s) b.formula.responseTerm?.toList b.response.toList :=
    hresponse.imp fun _ _ h => (responsePlan_eq_ok_iff.mp h).2
  have hterm := map_term_response hplanned
  constructor
  · exact hexpand
  · exact hterm
  · exact map_term_eq hpredictors
  · exact fun p hp => (b.planned_of_mem_readers h hp).laidOut
  · rw [houtput, BoundFormula.plans, outputPlans, List.flatMap_append, hterm]
  · rintro p hp hagain
    refine ⟨mem_predictors_of_response h hp hagain, fun field hfield => ?_⟩
    have hmem : field ∈ b.output.fields := by
      rw [houtput]
      exact List.mem_flatMap.mpr
        ⟨p, List.mem_append_left _ (Option.mem_toList.mpr hp), hfield⟩
    exact List.count_eq_one_of_mem b.output.nodup_names.of_map hmem

/-- The layout of `y ~ y - y + y + g::log(a)::h + 1`: the response is planned twice and listed once,
and the interaction has an output for every pair of levels. -/
theorem bind_laidOut_released : ∃ (f : Formula) (s : Schema) (b : BoundFormula),
    f.response = some ⟨.variable "y", true⟩ ∧
    f.predictors = [.variable "y",
      .interaction [.variable "g", .function "log" (.variable "a"), .variable "h"], .intercept] ∧
    s.fields = [⟨"h", .categorical ["p", "q"]⟩, ⟨"a", .i32⟩, ⟨"g", .categorical ["u", "v"]⟩,
      ⟨"y", .f64⟩] ∧
    f.bind s = .ok b ∧ b.LaidOut f s ∧
    b.predictors.map TermPlan.sources = [[3], [0, 1, 2]] ∧
    b.output.names = ["y", "g_u::log(a)::h_p", "g_u::log(a)::h_q", "g_v::log(a)::h_p",
      "g_v::log(a)::h_q"] := by
  have hlevels : ∀ field ∈ [Field.mk "h" (.categorical ["p", "q"]), ⟨"a", .i32⟩,
      ⟨"g", .categorical ["u", "v"]⟩, ⟨"y", .f64⟩], field.type.LevelsOk := by
    simp [DataType.LevelsOk, DataType.levels?]
  refine ⟨⟨some ⟨.variable "y", true⟩, [.variable "y",
      .interaction [.variable "g", .function "log" (.variable "a"), .variable "h"], .intercept],
      by decide⟩,
    ⟨_, by decide, hlevels⟩, ?b, rfl, rfl, rfl, ?bind, bind_laidOut ?bind, ?sources, ?names⟩
  case bind => rfl
  case sources => rfl
  case names => rfl

end Formula

end ModelFormula
