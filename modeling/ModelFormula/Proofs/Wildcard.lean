import ModelFormula.Proofs.Expansion

/-! # The wildcard

The wildcard gives way, in its place, to the columns that no term of the formula mentions. All else
stays as it is, so every column is mentioned then. What comes out has nothing left to resolve, and
binding it is binding the formula.
-/

namespace ModelFormula

namespace Term

variable {t : Term} {name name' : String}

theorem occursIn_variable_iff : t.OccursIn (.variable name) ↔ t = .variable name := by
  rw [occursIn_iff, occursInside_iff]
  simp [parts]

theorem not_variable_occursIn_dot : ¬ (Term.variable name).OccursIn .dot := by
  rw [occursIn_iff, occursInside_iff]
  simp [parts]

end Term

namespace Formula

variable {f g : Formula} {s : Schema} {b : BoundFormula} {before after : List Term} {t : Term}
  {name : String}

/-- Some term of the formula mentions the column, at any depth. -/
def Mentions (f : Formula) (name : String) : Prop := ∃ t ∈ f.terms, (Term.variable name).OccursIn t

/-- A formula whose wildcard, if there is one, has been replaced by the columns that are left. -/
structure Resolves (s : Schema) (f g : Formula) : Prop where

  response : g.response = f.response

  unchanged : .dot ∉ f.predictors → g.predictors = f.predictors

  replaced : ∀ {before after : List Term}, f.predictors = before ++ .dot :: after →
    ∃ names : List String, g.predictors = before ++ names.map .variable ++ after ∧
      names.Sublist s.names ∧ ∀ name, name ∈ names ↔ name ∈ s.names ∧ ¬ f.Mentions name

  dotless : ∀ t ∈ g.predictors, ¬ Term.dot.OccursIn t

  nodup : g.predictors.Nodup

  apart : ∀ t ∈ g.predictors, t ∉ f.predictors → ∀ r ∈ f.responseTerm?, ∀ name,
    (Term.variable name).OccursIn r → ¬ (Term.variable name).OccursIn t

  covers : .dot ∈ f.predictors → ∀ name ∈ s.names, g.Mentions name

def otherNames (f : Formula) (s : Schema) : List String :=
  s.names.filter fun name => decide (name ∉ f.terms.flatMap Term.columns)

theorem mentions_iff : f.Mentions name ↔ name ∈ f.terms.flatMap Term.columns := by
  simp only [Mentions, List.mem_flatMap, Term.mem_columns_iff]

theorem mem_otherNames : name ∈ f.otherNames s ↔ name ∈ s.names ∧ ¬ f.Mentions name := by
  rw [otherNames, List.mem_filter, decide_eq_true_eq, mentions_iff]

theorem predictors_resolveDot (h : f.predictors = before ++ .dot :: after) :
    (f.resolveDot s).predictors = before ++ (f.otherNames s).map .variable ++ after := by
  have hnodup := f.nodup
  rw [h, List.nodup_append, List.nodup_cons] at hnodup
  obtain ⟨-, ⟨hafter, -⟩, hdisjoint⟩ := hnodup
  have hbefore : .dot ∉ before := fun hdot => hdisjoint _ hdot _ List.mem_cons_self rfl
  change f.predictors.flatMap (f.resolved s) = _
  rw [h, List.flatMap_append, List.flatMap_cons, flatMap_resolved_of_not_mem hbefore,
    flatMap_resolved_of_not_mem hafter, ← List.append_assoc]
  rfl

/-- A predictor that the formula did not have is a column that it did not mention. -/
theorem exists_other_of_mem_resolveDot (h : t ∈ (f.resolveDot s).predictors)
    (hnew : t ∉ f.predictors) : ∃ name, t = .variable name ∧ ¬ f.Mentions name := by
  obtain ⟨u, hu, ht⟩ := List.mem_flatMap.mp h
  unfold resolved at ht
  split at ht
  · obtain ⟨name, -, hname, rfl⟩ := mem_others.mp ht
    exact ⟨name, rfl, fun hmentions => hname (mentions_iff.mp hmentions)⟩
  · exact absurd (List.mem_singleton.mp ht ▸ hu) hnew

theorem mem_terms_resolveDot (h : t ∈ f.terms) (hne : t ≠ .dot) : t ∈ (f.resolveDot s).terms := by
  rcases List.mem_append.mp h with h | h
  · exact List.mem_append_left _ h
  · refine List.mem_append_right _ (List.mem_flatMap.mpr ⟨t, h, ?_⟩)
    rw [resolved, if_neg hne]
    exact List.mem_singleton_self t

theorem mentions_resolveDot (hdot : .dot ∈ f.predictors) (hname : name ∈ s.names) :
    (f.resolveDot s).Mentions name := by
  by_cases h : f.Mentions name
  · obtain ⟨t, ht, hoccurs⟩ := h
    refine ⟨t, mem_terms_resolveDot ht ?_, hoccurs⟩
    rintro rfl
    exact Term.not_variable_occursIn_dot hoccurs
  · obtain ⟨before, after, he⟩ := List.append_of_mem hdot
    refine ⟨.variable name, List.mem_append_right _ ?_, Term.occursIn_variable_iff.mpr rfl⟩
    rw [predictors_resolveDot he]
    have hother := List.mem_map_of_mem (f := Term.variable) (mem_otherNames.mpr ⟨hname, h⟩)
    exact List.mem_append_left _ (List.mem_append_right _ hother)

/-- Nothing of the wildcard is left, not even inside a term. -/
theorem not_dot_occursIn_of_expand (h : f.expand s = .ok g) (ht : t ∈ g.predictors) :
    ¬ Term.dot.OccursIn t := by
  obtain ⟨rfl, hfault⟩ := expand_eq_ok_iff.mp h
  obtain ⟨-, hplaceholders, -⟩ := fault?_eq_none_iff.mp hfault
  rw [Term.occursIn_iff]
  rintro (rfl | hinside)
  · exact dot_not_mem_resolveDot ht
  · exact absurd (hplaceholders t (List.mem_append_right _ ht) _ hinside) (by decide)

/-- Expansion replaces the wildcard and changes nothing else. -/
theorem expand_resolves (h : f.expand s = .ok g) : Resolves s f g := by
  have hdotless : ∀ t ∈ g.predictors, ¬ Term.dot.OccursIn t :=
    fun t ht => not_dot_occursIn_of_expand h ht
  obtain ⟨rfl, -⟩ := expand_eq_ok_iff.mp h
  constructor
  · rfl
  · intro hdot
    rw [resolveDot_of_not_mem hdot]
  · intro before after he
    exact ⟨f.otherNames s, predictors_resolveDot he, List.filter_sublist, fun _ => mem_otherNames⟩
  · exact hdotless
  · exact (f.resolveDot s).nodup
  · intro t ht hnew r hr name hoccurs
    obtain ⟨other, rfl, hother⟩ := exists_other_of_mem_resolveDot ht hnew
    intro hsame
    obtain rfl := Term.variable.inj (Term.occursIn_variable_iff.mp hsame)
    exact hother ⟨r, List.mem_append_left _ (Option.mem_toList.mpr hr), hoccurs⟩
  · intro hdot name hname
    exact mentions_resolveDot hdot hname

/-- The wildcard of `log(y) ~ b::sqrt(a) + . + d`, which stands between terms that mention some of
the columns. -/
theorem expand_resolves_between : ∃ (f g : Formula) (s : Schema),
    f.responseTerm? = some (.function "log" (.variable "y")) ∧
    f.predictors = [.interaction [.variable "b", .function "sqrt" (.variable "a")], .dot,
      .variable "d"] ∧
    s.names = ["e", "d", "y", "c", "b", "a"] ∧ f.expand s = .ok g ∧
    g.predictors = [.interaction [.variable "b", .function "sqrt" (.variable "a")],
      .variable "e", .variable "c", .variable "d"] ∧ Resolves s f g := by
  refine ⟨⟨some ⟨.function "log" (.variable "y"), false⟩, [.interaction [.variable "b",
      .function "sqrt" (.variable "a")], .dot, .variable "d"], by decide⟩, ?g,
    ⟨["e", "d", "y", "c", "b", "a"].map fun name => ⟨name, .f64⟩, by decide, ?levels⟩, rfl, rfl,
    rfl, ?expand, ?predictors, expand_resolves ?expand⟩
  case levels => simp [DataType.LevelsOk, DataType.levels?]
  case expand => rfl
  case predictors => rfl

/-! ## Binding what has been expanded -/

theorem expand_of_bind (h : f.bind s = .ok b) : f.expand s = .ok b.formula := (bind_iff.mp h).1

theorem bind_of_expand_eq_error {error : FormulaError} (h : f.expand s = .error error) :
    f.bind s = .error error := by
  unfold bind
  rw [h]
  rfl

/-- Binding goes through the expansion: what has been expanded is expanded to itself and bound to
the same plans, or refused with the same error. -/
theorem bind_factors_through_expand (f : Formula) (s : Schema) :
    (∀ g, f.expand s = .ok g → g.expand s = .ok g ∧ g.bind s = f.bind s ∧
      ∀ b, f.bind s = .ok b → b.formula = g) ∧
    ∀ error, f.expand s = .error error → f.bind s = .error error := by
  constructor
  · intro g hg
    refine ⟨expand_of_expand hg, bind_of_expand hg, fun b hb => ?_⟩
    exact Except.ok.inj ((expand_of_bind hb).symm.trans hg)
  · intro error herror
    exact bind_of_expand_eq_error herror

/-- The formula `y ~ y - y + y + .` has its response among its predictors, and `y ~ log(z) + .`
names a column that is missing. -/
theorem bind_factors_through_expand_released : ∃ (f g f' : Formula) (s : Schema),
    f.response = some ⟨.variable "y", true⟩ ∧ f.predictors = [.variable "y", .dot] ∧
    f'.predictors = [.function "log" (.variable "z"), .dot] ∧ s.names = ["a", "y", "b"] ∧
    g.predictors = [.variable "y", .variable "a", .variable "b"] ∧ f.expand s = .ok g ∧
    (g.expand s = .ok g ∧ g.bind s = f.bind s ∧ ∀ b, f.bind s = .ok b → b.formula = g) ∧
    (∃ b, f.bind s = .ok b) ∧ f'.expand s = .error (.unresolvedColumn "z") ∧
    f'.bind s = .error (.unresolvedColumn "z") := by
  refine ⟨⟨some ⟨.variable "y", true⟩, [.variable "y", .dot], by decide⟩, ?g,
    ⟨some ⟨.variable "y", false⟩, [.function "log" (.variable "z"), .dot], by decide⟩,
    ⟨["a", "y", "b"].map fun name => ⟨name, .f64⟩, by decide, ?levels⟩, rfl, rfl, rfl, rfl,
    ?predictors, ?expand, (bind_factors_through_expand _ _).1 _ ?expand, ⟨?b, ?bind⟩, ?missing,
    (bind_factors_through_expand _ _).2 _ ?missing⟩
  case levels => simp [DataType.LevelsOk, DataType.levels?]
  case expand => rfl
  case predictors => rfl
  case bind => rfl
  case missing => rfl

end Formula

end ModelFormula
