import ModelFormula.Proofs.Lookup
import ModelFormula.Proofs.Occurrence
import ModelFormula.Proofs.Results

/-! # Typed terms

A term is a number, an operand of an interaction, or plannable, depending on the place where it
may stand. These are the terms that the planner accepts at the respective place.
-/

namespace ModelFormula.Term

variable {s : Schema} {t : Term} {p : TermPlan}

/-- The terms that are a number wherever they stand. -/
inductive IsNumeric (s : Schema) : Term → Prop where

  | column {field : Field} : field ∈ s.fields → field.type ≠ .string →
      field.type.isCategorical = false → IsNumeric s (.variable field.name)

  | function {name : String} {arg : Term} : name ∈ Elementwise.all.map Elementwise.name →
      IsNumeric s arg → IsNumeric s (.function name arg)

  | interaction {terms : List Term} : 2 ≤ terms.length → (∀ t ∈ terms, IsNumeric s t) →
      IsNumeric s (.interaction terms)

/-- The terms that an interaction combines: a category counts as well. -/
inductive IsOperand (s : Schema) : Term → Prop where

  | column {field : Field} : field ∈ s.fields → field.type ≠ .string →
      IsOperand s (.variable field.name)

  | number {term : Term} : IsNumeric s term → IsOperand s term

/-- The terms that can be the response or a predictor as far as their columns go. -/
inductive IsPlannable (s : Schema) : Term → Prop where

  | column {field : Field} : field ∈ s.fields → field.type ≠ .string →
      IsPlannable s (.variable field.name)

  | function {name : String} {arg : Term} : IsNumeric s (.function name arg) →
      IsPlannable s (.function name arg)

  | interaction {terms : List Term} : 2 ≤ terms.length → (∀ t ∈ terms, IsOperand s t) →
      IsPlannable s (.interaction terms)

theorem exists_ofName?_iff {name : String} : (∃ f, Elementwise.ofName? name = some f) ↔
    name ∈ Elementwise.all.map Elementwise.name := by
  constructor
  · rintro ⟨f, hf⟩
    exact List.mem_map.mpr ⟨f, List.mem_of_find?_eq_some hf, Elementwise.name_of_ofName? hf⟩
  · intro hname
    obtain ⟨f, -, rfl⟩ := List.mem_map.mp hname
    exact ⟨f, f.ofName?_name⟩

theorem numericExprs_eq_mapM (terms : List Term) :
    numericExprs s terms = terms.mapM (numericExpr s) := by
  induction terms with
  | nil => rfl
  | cons t terms ih => rw [numericExprs, List.mapM_cons, ih]

theorem isCategorical_eq_false_iff {type : DataType} :
    type.isCategorical = false ↔ type.levels? = none := by
  rw [DataType.isCategorical, Option.isSome_eq_false_iff, Option.isNone_iff_eq_none]

theorem numericExpr_column_eq_ok_iff {name : String} {e : Expr} :
    numericExpr s (.variable name) = .ok e ↔ ∃ i field, s.fields[i]? = some field ∧
      field.name = name ∧ field.type ≠ .string ∧ field.type.levels? = none ∧ e = .column i := by
  simp only [numericExpr, bind_eq_ok_iff]
  constructor
  · rintro ⟨⟨i, field⟩, hl, h⟩
    obtain ⟨hget, hname, htype⟩ := Schema.lookup_eq_ok_iff.mp hl
    split at h
    · cases h
    · next hc =>
      rw [Bool.not_eq_true, isCategorical_eq_false_iff] at hc
      exact ⟨i, field, hget, hname, htype, hc, (Except.ok.inj h).symm⟩
  · rintro ⟨i, field, hget, hname, htype, hnone, rfl⟩
    refine ⟨(i, field), Schema.lookup_eq_ok_iff.mpr ⟨hget, hname, htype⟩, if_neg ?_⟩
    simp [isCategorical_eq_false_iff.mpr hnone]

theorem numericExpr_function_eq_ok_iff {name : String} {arg : Term} {e : Expr} :
    numericExpr s (.function name arg) = .ok e ↔ ∃ f, Elementwise.ofName? name = some f ∧
      ∃ e', numericExpr s arg = .ok e' ∧ .apply f e' = e := by
  rw [numericExpr]
  cases Elementwise.ofName? name with
  | none => simp
  | some f => simp [map_eq_ok_iff]

theorem numericExpr_interaction_eq_ok_iff {terms : List Term} {e : Expr} :
    numericExpr s (.interaction terms) = .ok e ↔ 2 ≤ terms.length ∧
      ∃ es, List.Forall₂ (fun t e => numericExpr s t = .ok e) terms es ∧ .product es = e := by
  rw [numericExpr, numericExprs_eq_mapM]
  split
  · next h => simp [Nat.not_le.mpr h]
  · next h => simp [Nat.le_of_not_lt h, map_eq_ok_iff, mapM_eq_ok_iff]

theorem exists_numericExpr_column_iff {name : String} :
    (∃ e, numericExpr s (.variable name) = .ok e) ↔ IsNumeric s (.variable name) := by
  simp only [numericExpr_column_eq_ok_iff, ← isCategorical_eq_false_iff]
  constructor
  · rintro ⟨e, i, field, hget, rfl, htype, hc, -⟩
    exact .column (List.mem_of_getElem? hget) htype hc
  · rintro (⟨hmem, htype, hc⟩)
    obtain ⟨i, hget⟩ := List.mem_iff_getElem?.mp hmem
    exact ⟨_, i, _, hget, rfl, htype, hc, rfl⟩

theorem exists_numericExpr_function_iff {name : String} {arg : Term}
    (harg : (∃ e, numericExpr s arg = .ok e) ↔ IsNumeric s arg) :
    (∃ e, numericExpr s (.function name arg) = .ok e) ↔ IsNumeric s (.function name arg) := by
  simp only [numericExpr_function_eq_ok_iff]
  constructor
  · rintro ⟨-, f, hf, e, he, -⟩
    exact .function (exists_ofName?_iff.mp ⟨f, hf⟩) (harg.mp ⟨e, he⟩)
  · rintro (- | ⟨hname, h⟩)
    obtain ⟨f, hf⟩ := exists_ofName?_iff.mpr hname
    obtain ⟨e, he⟩ := harg.mpr h
    exact ⟨_, f, hf, e, he, rfl⟩

theorem exists_numericExpr_interaction_iff {terms : List Term}
    (hterms : ∀ t ∈ terms, (∃ e, numericExpr s t = .ok e) ↔ IsNumeric s t) :
    (∃ e, numericExpr s (.interaction terms) = .ok e) ↔ IsNumeric s (.interaction terms) := by
  have hall : (∃ es, List.Forall₂ (fun t e => numericExpr s t = .ok e) terms es) ↔
      ∀ t ∈ terms, IsNumeric s t :=
    exists_forall₂_iff.trans (forall₂_congr hterms)
  simp only [numericExpr_interaction_eq_ok_iff]
  constructor
  · rintro ⟨-, hl, es, hes, -⟩
    exact .interaction hl (hall.mp ⟨es, hes⟩)
  · rintro (- | - | ⟨hl, h⟩)
    obtain ⟨es, hes⟩ := hall.mpr h
    exact ⟨_, hl, es, hes, rfl⟩

/-- A number is computed from exactly the numeric terms. -/
theorem exists_numericExpr_iff : (∃ e, numericExpr s t = .ok e) ↔ IsNumeric s t := by
  induction t using induction_parts with
  | h t ih =>
    cases t with
    | «variable» name => exact exists_numericExpr_column_iff
    | function name arg =>
      exact exists_numericExpr_function_iff (ih arg (List.mem_singleton_self _))
    | interaction terms => exact exists_numericExpr_interaction_iff ih
    | crossing | dot | intercept =>
      constructor
      · rintro ⟨e, h⟩
        cases h
      · intro h
        cases h

end ModelFormula.Term
