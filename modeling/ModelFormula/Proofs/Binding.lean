import ModelFormula.Plan.Bound
import ModelFormula.Proofs.OutputNames

/-! # What can be bound

A formula is well-typed against a schema when its columns exist, its terms are plannable where
they stand, and its output names are distinct. Binding succeeds on exactly the formulas that are
well-typed once the wildcard has been replaced.
-/

namespace ModelFormula.Formula

open Term (Planned outputNames)

variable {f g : Formula} {s : Schema} {b : BoundFormula} {t : Term} {p : TermPlan}

/-- The terms that bring names into the output: the response, then all predictors that are not
the response again. -/
def outputTerms (f : Formula) : List Term :=
  f.responseTerm?.toList ++ f.predictors.filter fun t => decide (f.responseTerm? ≠ some t)

/-- What a formula without wildcard has to satisfy. The placeholders are the wildcard and
crossings. -/
structure WellTyped (s : Schema) (f : Formula) : Prop where
  columns : ∀ t ∈ f.terms, ∀ name, (Term.variable name).OccursIn t → name ∈ s.names
  placeholders : ∀ t ∈ f.terms, ∀ u : Term, u.OccursInside t → u.isPlaceholder = false
  response_released : ∀ t ∈ f.responseTerm?, t ∈ f.predictors → f.released = true
  response_shape : ∀ t ∈ f.responseTerm?,
    (∃ name, t = .variable name) ∨ ∃ name arg, t = .function name arg
  plannable : ∀ t ∈ f.terms, t ≠ .intercept → t.IsPlannable s
  names_nodup : (f.outputTerms.flatMap (outputNames s)).Nodup

theorem missingColumn?_eq_none_iff : missingColumn? s t = none ↔
    ∀ name, (Term.variable name).OccursIn t → name ∈ s.names := by
  simp [missingColumn?, Term.mem_columns_iff]

theorem fault?_eq_none_iff : f.fault? s = none ↔
    (∀ t ∈ f.terms, ∀ name, (Term.variable name).OccursIn t → name ∈ s.names) ∧
      (∀ t ∈ f.terms, ∀ u : Term, u.OccursInside t → u.isPlaceholder = false) ∧
        ∀ t ∈ f.responseTerm?, t ∈ f.predictors → f.released = true := by
  have hmissing : f.terms.findSome? (missingColumn? s) = none ↔
      ∀ t ∈ f.terms, ∀ name, (Term.variable name).OccursIn t → name ∈ s.names := by
    simp only [List.findSome?_eq_none_iff, missingColumn?_eq_none_iff]
  have hhidden : f.terms.find? Term.hidesPlaceholder = none ↔
      ∀ t ∈ f.terms, ∀ u : Term, u.OccursInside t → u.isPlaceholder = false := by
    simp only [List.find?_eq_none, Term.hidesPlaceholder_iff, not_exists, not_and,
      Bool.not_eq_true]
  rw [← hmissing, ← hhidden, fault?]
  cases f.terms.findSome? (missingColumn? s) with
  | some name => simp
  | none =>
    cases f.terms.find? Term.hidesPlaceholder with
    | some term => simp
    | none =>
      rcases hr : f.response with _ | ⟨term, _ | _⟩ <;> simp [responseTerm?, released, hr]

theorem responsePlan_eq_ok_iff : Term.responsePlan s t = .ok p ↔
    ((∃ name, t = .variable name) ∨ ∃ name arg, t = .function name arg) ∧ Planned s t p := by
  cases t <;> simp [Term.responsePlan, Term.plan_eq_ok_iff]

theorem bind_iff : f.bind s = .ok b ↔ f.expand s = .ok b.formula ∧ b.input = s ∧
    List.Forall₂ (fun t p => Term.responsePlan s t = .ok p) b.formula.responseTerm?.toList
      b.response.toList ∧
    List.Forall₂ (Planned s) (b.formula.predictors.filter (· ≠ .intercept)) b.predictors ∧
    b.output.fields = b.plans.flatMap TermPlan.outputs := by
  simp only [bind, bind_eq_ok_iff, option_mapM_eq_ok_iff, mapM_eq_ok_iff, mapError_eq_ok_iff,
    pure_eq_ok_iff, Schema.ofFields_eq_ok_iff, Term.plan_eq_ok_iff]
  constructor
  · rintro ⟨resolved, hexpand, response, hresponse, predictors, hpredictors, output, houtput, rfl⟩
    exact ⟨hexpand, rfl, hresponse, hpredictors, houtput⟩
  · rintro ⟨hexpand, rfl, hresponse, hpredictors, houtput⟩
    exact ⟨_, hexpand, _, hresponse, _, hpredictors, _, houtput, rfl⟩

/-! ## The names of the output -/

theorem names_plans {terms : List Term} {plans : List TermPlan}
    (h : List.Forall₂ (Planned s) terms plans) :
    (plans.flatMap TermPlan.outputs).map Field.name = terms.flatMap (outputNames s) := by
  induction h with
  | nil => rfl
  | cons hp _ ih =>
    rw [List.flatMap_cons, List.flatMap_cons, List.map_append, hp.names_outputs, ih]

theorem flatMap_outputNames_filter (terms : List Term) :
    (terms.filter (· ≠ .intercept)).flatMap (outputNames s) = terms.flatMap (outputNames s) := by
  induction terms with
  | nil => rfl
  | cons t terms ih =>
    by_cases ht : t = .intercept
    · subst ht
      exact ih
    · rw [List.filter_cons_of_pos (by simpa using ht), List.flatMap_cons, List.flatMap_cons, ih]

theorem outputPlans_eq_append {response : Option TermPlan} {predictors : List TermPlan}
    (h : ∀ p ∈ predictors, response.map TermPlan.term ≠ some p.term) :
    outputPlans response predictors = response.toList ++ predictors := by
  rw [outputPlans, List.filter_eq_self.mpr fun p hp => decide_eq_true (h p hp)]

section Plans

variable {response : Option TermPlan} {predictors : List TermPlan}
  (hr : List.Forall₂ (Planned s) f.responseTerm?.toList response.toList)
  (hp : List.Forall₂ (Planned s) (f.predictors.filter (· ≠ .intercept)) predictors)

include hr

theorem map_term_response : response.map TermPlan.term = f.responseTerm? := by
  cases hf : f.responseTerm? with
  | none =>
    rw [hf] at hr
    cases response with
    | none => rfl
    | some p => cases hr
  | some t =>
    rw [hf] at hr
    cases response with
    | none => cases hr
    | some p => rw [Option.map_some, ((List.forall₂_cons.mp hr).1).term_eq]

include hp

theorem planned_outputPlans : List.Forall₂ (Planned s) (f.outputTerms.filter (· ≠ .intercept))
    (outputPlans response predictors) := by
  have hresponse : f.responseTerm?.toList.filter (· ≠ .intercept) = f.responseTerm?.toList := by
    refine List.filter_eq_self.mpr fun t ht => ?_
    obtain ⟨p, hp⟩ := exists_forall₂_iff.mp ⟨_, hr⟩ t ht
    cases hp <;> rfl
  have hrest : List.Forall₂ (Planned s)
      ((f.predictors.filter (· ≠ .intercept)).filter fun t => decide (f.responseTerm? ≠ some t))
      (predictors.filter fun p => decide (response.map TermPlan.term ≠ some p.term)) := by
    refine List.rel_filter (fun t p h => ?_) hp
    simp only [map_term_response hr, h.term_eq]
  rw [outputTerms, List.filter_append, hresponse, List.filter_comm]
  exact List.rel_append hr hrest

theorem names_outputPlans : ((outputPlans response predictors).flatMap TermPlan.outputs).map
    Field.name = f.outputTerms.flatMap (outputNames s) := by
  rw [names_plans (planned_outputPlans hr hp), flatMap_outputNames_filter]

theorem levelsOk_outputPlans {field : Field}
    (hf : field ∈ (outputPlans response predictors).flatMap TermPlan.outputs) :
    field.type.LevelsOk := by
  obtain ⟨p, hmem, hf⟩ := List.mem_flatMap.mp hf
  obtain ⟨t, ht⟩ := exists_forall₂_iff.mp ⟨_, (planned_outputPlans hr hp).flip⟩ p hmem
  exact ht.levelsOk hf

/-- Distinct names are all that the outputs need to be a schema. -/
theorem exists_output_iff : (∃ output : Schema,
    output.fields = (outputPlans response predictors).flatMap TermPlan.outputs) ↔
      (f.outputTerms.flatMap (outputNames s)).Nodup := by
  rw [← names_outputPlans hr hp]
  constructor
  · rintro ⟨output, houtput⟩
    exact houtput ▸ output.nodup_names
  · intro h
    exact ⟨⟨_, h, fun _ => levelsOk_outputPlans hr hp⟩, rfl⟩

end Plans

/-! ## What is bound -/

theorem WellTyped.of_bind (h : f.bind s = .ok b) : (f.resolveDot s).WellTyped s := by
  obtain ⟨hexpand, -, hresponse, hpredictors, houtput⟩ := bind_iff.mp h
  obtain ⟨hf, hfault⟩ := expand_eq_ok_iff.mp hexpand
  rw [hf] at hfault ⊢
  obtain ⟨hcolumns, hplaceholders, hreleased⟩ := fault?_eq_none_iff.mp hfault
  have hplanned : List.Forall₂ (Planned s) b.formula.responseTerm?.toList b.response.toList :=
    hresponse.imp fun _ _ h => (responsePlan_eq_ok_iff.mp h).2
  refine ⟨hcolumns, hplaceholders, hreleased, fun t ht => ?_, fun t ht hne => ?_, ?_⟩
  · obtain ⟨p, hp⟩ := exists_forall₂_iff.mp ⟨_, hresponse⟩ t (Option.mem_toList.mpr ht)
    exact (responsePlan_eq_ok_iff.mp hp).1
  · rcases List.mem_append.mp ht with ht | ht
    · exact Term.exists_planned_iff.mp (exists_forall₂_iff.mp ⟨_, hplanned⟩ t ht)
    · have hmem : t ∈ b.formula.predictors.filter (· ≠ .intercept) := by simp [ht, hne]
      exact Term.exists_planned_iff.mp (exists_forall₂_iff.mp ⟨_, hpredictors⟩ t hmem)
  · exact (exists_output_iff hplanned hpredictors).mp ⟨b.output, houtput⟩

namespace WellTyped

theorem exists_response (h : f.WellTyped s) : ∃ response : Option TermPlan, List.Forall₂
    (fun t p => Term.responsePlan s t = .ok p) f.responseTerm?.toList response.toList := by
  refine exists_option_forall₂_iff.mpr fun t ht => ?_
  have hshape := h.response_shape t ht
  have hne : t ≠ .intercept := by
    rintro rfl
    rcases hshape with ⟨_, hn⟩ | ⟨_, _, hn⟩ <;> cases hn
  have hmem : t ∈ f.terms := List.mem_append_left _ (Option.mem_toList.mpr ht)
  obtain ⟨p, hp⟩ := Term.exists_planned_iff.mpr (h.plannable t hmem hne)
  exact ⟨p, responsePlan_eq_ok_iff.mpr ⟨hshape, hp⟩⟩

theorem exists_predictors (h : f.WellTyped s) : ∃ predictors,
    List.Forall₂ (Planned s) (f.predictors.filter (· ≠ .intercept)) predictors := by
  refine exists_forall₂_iff.mpr fun t ht => Term.exists_planned_iff.mpr ?_
  obtain ⟨hmem, hne⟩ := List.mem_filter.mp ht
  exact h.plannable t (List.mem_append_right _ hmem) (by simpa using hne)

theorem exists_bind (h : (f.resolveDot s).WellTyped s) : ∃ b, f.bind s = .ok b := by
  have hexpand : f.expand s = .ok (f.resolveDot s) := expand_eq_ok_iff.mpr
    ⟨rfl, fault?_eq_none_iff.mpr ⟨h.columns, h.placeholders, h.response_released⟩⟩
  obtain ⟨response, hresponse⟩ := h.exists_response
  obtain ⟨predictors, hpredictors⟩ := h.exists_predictors
  have hplanned : List.Forall₂ (Planned s) (f.resolveDot s).responseTerm?.toList
      response.toList := hresponse.imp fun _ _ h => (responsePlan_eq_ok_iff.mp h).2
  obtain ⟨output, houtput⟩ := (exists_output_iff hplanned hpredictors).mpr h.names_nodup
  exact ⟨⟨f.resolveDot s, s, output, response, predictors⟩,
    bind_iff.mpr ⟨hexpand, rfl, hresponse, hpredictors, houtput⟩⟩

end WellTyped

theorem wellTyped_of_bind (h : f.bind s = .ok b) : b.formula.WellTyped s := by
  rw [← (expand_eq_ok_iff.mp (bind_iff.mp h).1).1]
  exact .of_bind h

/-- A formula is bound exactly when it is well-typed after its wildcard has been replaced. -/
theorem exists_bind_iff_wellTyped :
    (∃ b, f.bind s = .ok b) ↔ (f.resolveDot s).WellTyped s :=
  ⟨fun ⟨_, h⟩ => .of_bind h, WellTyped.exists_bind⟩

end ModelFormula.Formula
