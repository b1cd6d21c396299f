import ModelFormula.Proofs.Typing

/-! # Planned terms

The plans of a term, one rule for each shape that a plan can have. A term has a plan exactly when
it is plannable.
-/

namespace ModelFormula.Term

variable {s : Schema} {t : Term} {p : TermPlan} {o : Operand}

inductive PlannedOperand (s : Schema) : Term → Operand → Prop where

  | factor {i : Nat} {field : Field} {levels : List String} : s.fields[i]? = some field →
      field.type.levels? = some levels →
      PlannedOperand s (.variable field.name) (.factor i levels)

  | number {term : Term} {e : Expr} : numericExpr s term = .ok e →
      PlannedOperand s term (.numeric e)

inductive Planned (s : Schema) : Term → TermPlan → Prop where

  | number {i : Nat} {field : Field} : s.fields[i]? = some field → field.type ≠ .string →
      field.type.levels? = none →
      Planned s (.variable field.name) ⟨.variable field.name, .numeric (.column i), [field]⟩

  | category {i : Nat} {field : Field} {levels : List String} : s.fields[i]? = some field →
      field.type.levels? = some levels →
      Planned s (.variable field.name) ⟨.variable field.name, .categorical i levels, [field]⟩

  | function {name : String} {arg : Term} {e : Expr} :
      numericExpr s (.function name arg) = .ok e →
      Planned s (.function name arg)
        ⟨.function name arg, .numeric e, [computed (label (.function name arg))]⟩

  | interaction {terms : List Term} {operands : List Operand} : 2 ≤ terms.length →
      List.Forall₂ (PlannedOperand s) terms operands →
      Planned s (.interaction terms) (interactionPlan terms operands)

theorem ne_string_of_levels? {type : DataType} {levels : List String}
    (h : type.levels? = some levels) : type ≠ .string := by
  rintro rfl
  cases h

theorem operand_column_eq_ok_iff {name : String} :
    operand s (.variable name) = .ok o ↔ PlannedOperand s (.variable name) o := by
  simp only [operand, bind_eq_ok_iff]
  constructor
  · rintro ⟨⟨i, field⟩, hl, h⟩
    obtain ⟨hget, rfl, htype⟩ := Schema.lookup_eq_ok_iff.mp hl
    cases hlevels : field.type.levels? with
    | some levels =>
      obtain rfl : Operand.factor i levels = o := by simpa [hlevels, pure_eq_ok_iff] using h
      exact .factor hget hlevels
    | none =>
      obtain rfl : Operand.numeric (.column i) = o := by simpa [hlevels, pure_eq_ok_iff] using h
      exact .number (numericExpr_column_eq_ok_iff.mpr ⟨i, field, hget, rfl, htype, hlevels, rfl⟩)
  · intro h
    cases h with
    | factor hget hlevels =>
      refine ⟨_, Schema.lookup_eq_ok_iff.mpr ⟨hget, rfl, ne_string_of_levels? hlevels⟩, ?_⟩
      simp [hlevels, pure_eq_ok_iff]
    | number he =>
      obtain ⟨i, field, hget, hname, htype, hlevels, rfl⟩ := numericExpr_column_eq_ok_iff.mp he
      refine ⟨_, Schema.lookup_eq_ok_iff.mpr ⟨hget, hname, htype⟩, ?_⟩
      simp [hlevels, pure_eq_ok_iff]

theorem operand_eq_ok_iff : operand s t = .ok o ↔ PlannedOperand s t o := by
  by_cases ht : ∃ name, t = .variable name
  · obtain ⟨name, rfl⟩ := ht
    exact operand_column_eq_ok_iff
  · rw [not_exists] at ht
    -- Anything but a column is an operand only as a number.
    have hoperand : operand s t = (numericExpr s t).map .numeric := by
      cases t <;> first | rfl | exact absurd rfl (ht _)
    rw [hoperand, map_eq_ok_iff]
    constructor
    · rintro ⟨e, he, rfl⟩
      exact .number he
    · intro h
      cases h with
      | factor => exact absurd rfl (ht _)
      | number he => exact ⟨_, he, rfl⟩

theorem plan_column_eq_ok_iff {name : String} :
    plan s (.variable name) = .ok p ↔ Planned s (.variable name) p := by
  simp only [plan, bind_eq_ok_iff, pure_eq_ok_iff]
  constructor
  · rintro ⟨⟨i, field⟩, hl, rfl⟩
    obtain ⟨hget, rfl, htype⟩ := Schema.lookup_eq_ok_iff.mp hl
    cases hlevels : field.type.levels? with
    | some levels => exact .category hget hlevels
    | none => exact .number hget htype hlevels
  · intro h
    cases h with
    | number hget htype hlevels =>
      refine ⟨_, Schema.lookup_eq_ok_iff.mpr ⟨hget, rfl, htype⟩, ?_⟩
      simp [hlevels]
    | category hget hlevels =>
      refine ⟨_, Schema.lookup_eq_ok_iff.mpr ⟨hget, rfl, ne_string_of_levels? hlevels⟩, ?_⟩
      simp [hlevels]

theorem plan_interaction_eq_ok_iff {terms : List Term} :
    plan s (.interaction terms) = .ok p ↔ Planned s (.interaction terms) p := by
  simp only [plan]
  constructor
  · intro h
    split at h
    · cases h
    · next hl =>
      obtain ⟨operands, hoperands, rfl⟩ := map_eq_ok_iff.mp h
      refine .interaction (Nat.le_of_not_lt hl) ?_
      exact (mapM_eq_ok_iff.mp hoperands).imp fun _ _ => operand_eq_ok_iff.mp
  · rintro ⟨⟩
    next operands hl hoperands =>
    have hmap : terms.mapM (operand s) = .ok operands :=
      mapM_eq_ok_iff.mpr (hoperands.imp fun _ _ => operand_eq_ok_iff.mpr)
    rw [if_neg (Nat.not_lt.mpr hl), hmap]
    rfl

/-- The planner follows the rules and misses none. -/
theorem plan_eq_ok_iff : plan s t = .ok p ↔ Planned s t p := by
  cases t with
  | «variable» name => exact plan_column_eq_ok_iff
  | function name arg =>
    simp only [plan, bind_eq_ok_iff, pure_eq_ok_iff]
    constructor
    · rintro ⟨e, he, rfl⟩
      exact .function he
    · rintro ⟨⟩
      next e he => exact ⟨e, he, rfl⟩
  | interaction terms => exact plan_interaction_eq_ok_iff
  | crossing | dot | intercept =>
    constructor
    · intro h
      cases h
    · intro h
      cases h

theorem Planned.unique {p' : TermPlan} (h : Planned s t p) (h' : Planned s t p') : p = p' :=
  Except.ok.inj ((plan_eq_ok_iff.mpr h).symm.trans (plan_eq_ok_iff.mpr h'))

theorem Planned.field_of_category {i : Nat} {levels : List String} (h : Planned s t p)
    (hk : p.kind = .categorical i levels) : ∃ field, s.fields[i]? = some field ∧
      field.type.levels? = some levels ∧ p.outputs = [field] := by
  cases h with
  | number | function => cases hk
  | category hget hlevels =>
    cases hk
    exact ⟨_, hget, hlevels, rfl⟩
  | interaction =>
    unfold interactionPlan at hk
    split at hk <;> cases hk

theorem Planned.operands_of_interaction {operands : List Operand} (h : Planned s t p)
    (hk : p.kind = .factorInteraction operands) :
    ∃ terms, List.Forall₂ (PlannedOperand s) terms operands ∧
      p.outputs = (Operand.combinations operands).map fun codes =>
        computed (outputName terms operands codes) := by
  cases h with
  | number | category | function => cases hk
  | @interaction terms _ _ hoperands =>
    unfold interactionPlan at hk ⊢
    split at hk
    · cases hk
    · cases hk
      exact ⟨terms, hoperands, rfl⟩

theorem exists_plannedOperand_iff : (∃ o, PlannedOperand s t o) ↔ IsOperand s t := by
  constructor
  · rintro ⟨o, h⟩
    cases h with
    | factor hget hlevels =>
      exact .column (List.mem_of_getElem? hget) (ne_string_of_levels? hlevels)
    | number he => exact .number (exists_numericExpr_iff.mp ⟨_, he⟩)
  · intro h
    cases h with
    | @column field hmem htype =>
      obtain ⟨i, hget⟩ := List.mem_iff_getElem?.mp hmem
      cases hlevels : field.type.levels? with
      | some levels => exact ⟨_, .factor hget hlevels⟩
      | none =>
        exact ⟨_, .number (numericExpr_column_eq_ok_iff.mpr
          ⟨i, field, hget, rfl, htype, hlevels, rfl⟩)⟩
    | number h =>
      obtain ⟨e, he⟩ := exists_numericExpr_iff.mpr h
      exact ⟨_, .number he⟩

/-- A plan exists for exactly the plannable terms. -/
theorem exists_planned_iff : (∃ p, Planned s t p) ↔ IsPlannable s t := by
  constructor
  · rintro ⟨p, h⟩
    cases h with
    | number hget htype => exact .column (List.mem_of_getElem? hget) htype
    | category hget hlevels =>
      exact .column (List.mem_of_getElem? hget) (ne_string_of_levels? hlevels)
    | function he => exact .function (exists_numericExpr_iff.mp ⟨_, he⟩)
    | interaction hl hoperands =>
      refine .interaction hl fun t ht => exists_plannedOperand_iff.mp ?_
      exact exists_forall₂_iff.mp ⟨_, hoperands⟩ t ht
  · intro h
    cases h with
    | @column field hmem htype =>
      obtain ⟨i, hget⟩ := List.mem_iff_getElem?.mp hmem
      cases hlevels : field.type.levels? with
      | some levels => exact ⟨_, .category hget hlevels⟩
      | none => exact ⟨_, .number hget htype hlevels⟩
    | function h =>
      obtain ⟨e, he⟩ := exists_numericExpr_iff.mpr h
      exact ⟨_, .function he⟩
    | interaction hl h =>
      obtain ⟨operands, hoperands⟩ :=
        exists_forall₂_iff.mpr fun t ht => exists_plannedOperand_iff.mpr (h t ht)
      exact ⟨_, .interaction hl hoperands⟩

end ModelFormula.Term
