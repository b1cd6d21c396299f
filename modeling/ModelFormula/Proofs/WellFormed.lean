import ModelFormula.Proofs.Binding
import ModelFormula.Proofs.Regular

/-! # Formulas that are read are well-formed

What a text writes is made of columns, functions and interactions of factors; the wildcard, the
intercept and crossings are never inside another term. Such a formula can only fail on a schema for
what the schema says of its columns, or for a response that no plan can be made of.
-/

namespace ModelFormula

/-! ## The shape of terms -/

namespace Term

variable {t u : Term} {callee : String → Prop}

/-- The terms that stand for themselves, and not for others or for a constant. -/
inductive IsProper : Term → Prop where

  | column {name : String} : IsProper (.variable name)

  | function {name : String} {arg : Term} : IsProper (.function name arg)

  | interaction {operands : List Term} : IsProper (.interaction operands)

/-- What holds of a term and of all terms in it: interactions are made of two or more factors,
arguments and all else that is inside another term are proper, and there are no names but those that
can be written. -/
structure WellFormed (t : Term) : Prop where

  interactions : ∀ operands, (interaction operands).OccursIn t →
    2 ≤ operands.length ∧ ∀ u ∈ operands, u.isFactor = true

  arguments : ∀ name arg, (function name arg).OccursIn t → arg.IsProper

  inside : ∀ u : Term, u.OccursInside t → u.IsProper

  names : ∀ name, ((«variable» name).OccursIn t ∨ ∃ arg, (function name arg).OccursIn t) →
    IsName name

theorem IsProper.isPlaceholder_eq_false (h : t.IsProper) : t.isPlaceholder = false := by
  cases h <;> rfl

namespace Expressible

theorem isProper (h : t.Expressible callee) : t.IsProper := by
  cases h with
  | column => exact .column
  | function => exact .function
  | interaction => exact .interaction

theorem of_mem_parts (h : t.Expressible callee) (hu : u ∈ t.parts) : u.Expressible callee := by
  cases h with
  | column => cases hu
  | function _ harg => exact List.mem_singleton.mp hu ▸ harg
  | interaction _ _ hoperands => exact hoperands u hu

theorem of_occursIn (h : t.Expressible callee) (hu : u.OccursIn t) : u.Expressible callee := by
  induction hu using Relation.ReflTransGen.head_induction_on with
  | refl => exact h
  | head hpart _ ih => exact ih.of_mem_parts hpart

theorem wellFormed (h : t.Expressible IsName) : t.WellFormed := by
  refine ⟨fun operands hu => ?interactions, fun name arg hu => ?arguments, fun u hu => ?inside,
    fun name hu => ?names⟩
  case interactions =>
    cases h.of_occursIn hu with
    | interaction hlength hfactors _ => exact ⟨hlength, hfactors⟩
  case arguments =>
    cases h.of_occursIn hu with
    | function _ harg => exact harg.isProper
  case inside => exact (h.of_occursIn (occursIn_iff.mpr (.inr hu))).isProper
  case names =>
    rcases hu with hu | ⟨arg, hu⟩
    · cases h.of_occursIn hu with
      | column hname => exact hname
    · cases h.of_occursIn hu with
      | function hname _ => exact hname

end Expressible

theorem not_occursInside (h : t.parts = []) : ¬ u.OccursInside t := by
  rw [occursInside_iff, h]
  simp

theorem wellFormed_of_not_isProper (hparts : t.parts = []) (ht : ¬ t.IsProper) : t.WellFormed := by
  have hself : ∀ {u : Term}, u.OccursIn t → u = t := fun hu =>
    (occursIn_iff.mp hu).resolve_right (not_occursInside hparts)
  refine ⟨fun operands hu => ?interactions, fun name arg hu => ?arguments,
    fun u hu => absurd hu (not_occursInside hparts), fun name hu => ?names⟩
  case interactions => exact absurd (hself hu ▸ .interaction) ht
  case arguments => exact absurd (hself hu ▸ .function) ht
  case names =>
    rcases hu with hu | ⟨arg, hu⟩
    · exact absurd (hself hu ▸ .column) ht
    · exact absurd (hself hu ▸ .function) ht

theorem Listable.wellFormed (h : t.Listable IsName) : t.WellFormed := by
  cases h with
  | dot => exact wellFormed_of_not_isProper rfl nofun
  | intercept => exact wellFormed_of_not_isProper rfl nofun
  | expressible h => exact h.wellFormed

end Term

namespace Formula

variable {f : Formula} {s : Schema} {t : Term}

/-- What a formula is made of: a proper response, distinct predictors that are proper or the
wildcard or the intercept, and no terms in them but well-formed ones. Only a response can be
released. -/
structure WellFormed (f : Formula) : Prop where

  response : ∀ t ∈ f.responseTerm?, t.IsProper

  predictors : ∀ t ∈ f.predictors, t = .dot ∨ t = .intercept ∨ t.IsProper

  terms : ∀ t ∈ f.terms, t.WellFormed

  nodup : f.predictors.Nodup

  released : f.released = true → ∃ response, f.response = some response

theorem Regular.wellFormed (h : f.Regular IsName) : f.WellFormed := by
  refine ⟨fun t ht => (h.response t ht).isProper, fun t ht => ?predictors, fun t ht => ?terms,
    f.nodup, fun hreleased => ?released⟩
  case predictors =>
    cases h.predictors t ht with
    | dot => exact .inl rfl
    | intercept => exact .inr (.inl rfl)
    | expressible ht => exact .inr (.inr ht.isProper)
  case terms =>
    rcases List.mem_append.mp ht with ht | ht
    · exact (h.response t (Option.mem_toList.mp ht)).wellFormed
    · exact (h.predictors t ht).wellFormed
  case released =>
    cases hr : f.response with
    | none => simp [released, hr] at hreleased
    | some response => exact ⟨response, rfl⟩

end Formula

/-! ## What can go wrong against a schema -/

/-- The fault of a category that stands where a number is needed. -/
def Schema.CategoryFault (s : Schema) (t : Term) (fault : TermFault) : Prop :=
  ∃ field ∈ s.fields, field.type.isCategorical = true ∧ t = .variable field.name ∧
    fault = .categoryAsNumber field.name

theorem Schema.lookup_ne_invalidTerm {s : Schema} {name : String} {t : Term} {fault : TermFault} :
    s.lookup name ≠ .error (.invalidTerm t fault) := by
  unfold lookup
  split
  · split <;> nofun
  · nofun

namespace Term

variable {s : Schema} {t u : Term} {fault : TermFault} {callee : String → Prop}

/-- An expression that is no number mentions a category. -/
theorem Expressible.categoryFault_of_numericExpr (h : t.Expressible callee)
    (herror : numericExpr s t = .error (.invalidTerm u fault)) : s.CategoryFault u fault := by
  induction h with
  | @column name hname =>
    rw [numericExpr] at herror
    rcases bind_eq_error_iff.mp herror with hlookup | ⟨⟨i, field⟩, hlookup, herror⟩
    · exact absurd hlookup Schema.lookup_ne_invalidTerm
    · obtain ⟨hget, rfl, -⟩ := Schema.lookup_eq_ok_iff.mp hlookup
      by_cases hcategory : field.type.isCategorical = true
      · simp only [hcategory, if_true] at herror
        cases herror
        exact ⟨field, List.mem_of_getElem? hget, hcategory, rfl, rfl⟩
      · simp only [hcategory] at herror
        cases herror
  | @function name arg hname harg ih =>
    rw [numericExpr] at herror
    split at herror
    · cases herror
    · exact ih (map_eq_error_iff.mp herror)
  | @interaction operands hlength hfactors hoperands ih =>
    rw [numericExpr, if_neg (Nat.not_lt.mpr hlength), numericExprs_eq_mapM] at herror
    obtain ⟨t, ht, herror⟩ := exists_of_mapM_eq_error (map_eq_error_iff.mp herror)
    exact ih t ht herror

theorem Expressible.categoryFault_of_operand (h : t.Expressible callee)
    (herror : operand s t = .error (.invalidTerm u fault)) : s.CategoryFault u fault := by
  cases h with
  | @column name hname =>
    rw [operand] at herror
    rcases bind_eq_error_iff.mp herror with hlookup | ⟨⟨i, field⟩, -, herror⟩
    · exact absurd hlookup Schema.lookup_ne_invalidTerm
    · cases hlevels : field.type.levels? <;> simp only [hlevels] at herror <;> cases herror
  | @function name arg hname harg =>
    exact (Expressible.function hname harg).categoryFault_of_numericExpr
      (map_eq_error_iff.mp herror)
  | interaction hlength hfactors hoperands =>
    exact (Expressible.interaction hlength hfactors hoperands).categoryFault_of_numericExpr
      (map_eq_error_iff.mp herror)

theorem plan_variable_ne_invalidTerm {name : String} :
    plan s (.variable name) ≠ .error (.invalidTerm u fault) := by
  intro herror
  rw [plan] at herror
  rcases bind_eq_error_iff.mp herror with hlookup | ⟨⟨i, field⟩, -, herror⟩
  · exact Schema.lookup_ne_invalidTerm hlookup
  · cases herror

theorem Expressible.categoryFault_of_plan (h : t.Expressible callee)
    (herror : plan s t = .error (.invalidTerm u fault)) : s.CategoryFault u fault := by
  have hall := h
  cases h with
  | column => exact absurd herror plan_variable_ne_invalidTerm
  | function =>
    rw [plan] at herror
    rcases bind_eq_error_iff.mp herror with herror | ⟨x, -, herror⟩
    · exact hall.categoryFault_of_numericExpr herror
    · cases herror
  | interaction hlength _ hoperands =>
    rw [plan, if_neg (Nat.not_lt.mpr hlength)] at herror
    obtain ⟨t, ht, herror⟩ := exists_of_mapM_eq_error (map_eq_error_iff.mp herror)
    exact (hoperands t ht).categoryFault_of_operand herror

theorem Expressible.fault_of_responsePlan (h : t.Expressible callee)
    (herror : responsePlan s t = .error (.invalidTerm u fault)) :
    (u = t ∧ (∃ operands, t = .interaction operands) ∧ fault = .responseShape) ∨
      s.CategoryFault u fault := by
  have hall := h
  cases h with
  | column | function => exact .inr (hall.categoryFault_of_plan herror)
  | interaction =>
    cases herror
    exact .inl ⟨rfl, ⟨_, rfl⟩, rfl⟩

end Term

namespace Formula

variable {f : Formula} {s : Schema} {t : Term}

/-- What can be wrong with a formula against a schema when its own structure is sound: before
anything is planned, a column is missing or the response is a predictor as well; and a term is only
invalid if an interaction is the response or a category stands where a number is needed. -/
structure FailsByMeaning (f : Formula) (s : Schema) : Prop where

  expand : ∀ error, f.expand s = .error error →
    (∃ name, name ∉ s.names ∧ error = .unresolvedColumn name) ∨
      ∃ t ∈ f.responseTerm?, error = .duplicateResponse t

  bind : ∀ t fault, f.bind s = .error (.invalidTerm t fault) →
    (t ∈ f.responseTerm? ∧ (∃ operands, t = .interaction operands) ∧ fault = .responseShape) ∨
      s.CategoryFault t fault

theorem mem_predictors_resolveDot (ht : t ∈ (f.resolveDot s).predictors) :
    (t ∈ f.predictors ∧ t ≠ .dot) ∨ ∃ name, t = .variable name := by
  obtain ⟨u, hu, ht⟩ := List.mem_flatMap.mp ht
  unfold resolved at ht
  split at ht
  · obtain ⟨name, -, -, rfl⟩ := mem_others.mp ht
    exact .inr ⟨name, rfl⟩
  · next hdot =>
    obtain rfl := List.mem_singleton.mp ht
    exact .inl ⟨hu, hdot⟩

theorem WellFormed.hidesPlaceholder_eq_false (h : f.WellFormed)
    (ht : t ∈ (f.resolveDot s).terms) : t.hidesPlaceholder = false := by
  have hinside : ∀ u : Term, u.OccursInside t → u.IsProper := by
    rcases List.mem_append.mp ht with ht | ht
    · exact (h.terms t (List.mem_append_left _ ht)).inside
    · rcases mem_predictors_resolveDot ht with ⟨ht, -⟩ | ⟨name, rfl⟩
      · exact (h.terms t (List.mem_append_right _ ht)).inside
      · exact fun u hu => absurd hu (Term.not_occursInside rfl)
  rw [← Bool.not_eq_true, Term.hidesPlaceholder_iff]
  rintro ⟨u, hu, hplaceholder⟩
  rw [(hinside u hu).isPlaceholder_eq_false] at hplaceholder
  cases hplaceholder

theorem expand_eq_error_iff {error : FormulaError} :
    f.expand s = .error error ↔ (f.resolveDot s).fault? s = some error := by
  unfold expand
  cases (f.resolveDot s).fault? s <;> simp

theorem error_of_fault? {error : FormulaError}
    (hhidden : ∀ t ∈ f.terms, t.hidesPlaceholder = false) (h : f.fault? s = some error) :
    (∃ name, name ∉ s.names ∧ error = .unresolvedColumn name) ∨
      ∃ t ∈ f.responseTerm?, error = .duplicateResponse t := by
  have hnone : f.terms.find? Term.hidesPlaceholder = none := by simpa using hhidden
  unfold fault? at h
  rw [hnone] at h
  cases hmissing : f.terms.findSome? (missingColumn? s) with
  | some name =>
    rw [hmissing] at h
    obtain ⟨t, -, hname⟩ := List.exists_of_findSome?_eq_some hmissing
    unfold missingColumn? at hname
    have hfresh : name ∉ s.names := by simpa using List.find?_some hname
    exact .inl ⟨name, hfresh, (Option.some.inj h).symm⟩
  | none =>
    rw [hmissing] at h
    rcases hr : f.response with _ | ⟨t, _ | _⟩
    · simp [hr] at h
    · refine .inr ⟨t, by simp [responseTerm?, hr], ?_⟩
      simp only [hr] at h
      split at h
      · exact (Option.some.inj h).symm
      · cases h
    · simp [hr] at h

theorem WellFormed.expand_eq_error (h : f.WellFormed) {error : FormulaError}
    (herror : f.expand s = .error error) :
    (∃ name, name ∉ s.names ∧ error = .unresolvedColumn name) ∨
      ∃ t ∈ f.responseTerm?, error = .duplicateResponse t := by
  have hhidden : ∀ t ∈ (f.resolveDot s).terms, t.hidesPlaceholder = false := fun _ ht =>
    h.hidesPlaceholder_eq_false ht
  exact error_of_fault? (f := f.resolveDot s) hhidden (expand_eq_error_iff.mp herror)

theorem Regular.bind_eq_invalidTerm (h : f.Regular IsName) {u : Term} {fault : TermFault}
    (herror : f.bind s = .error (.invalidTerm u fault)) :
    (u ∈ f.responseTerm? ∧ (∃ operands, u = .interaction operands) ∧ fault = .responseShape) ∨
      s.CategoryFault u fault := by
  -- Binding is a chain, and only the planning of a term reports that a term is invalid.
  unfold bind at herror
  rcases bind_eq_error_iff.mp herror with hexpand | ⟨g, hexpand, herror⟩
  · rcases h.wellFormed.expand_eq_error hexpand with ⟨name, -, h⟩ | ⟨t, -, h⟩ <;> cases h
  obtain ⟨rfl, -⟩ := expand_eq_ok_iff.mp hexpand
  rcases bind_eq_error_iff.mp herror with hresponse | ⟨response, -, herror⟩
  · obtain ⟨t, ht, herror⟩ := exists_of_option_mapM_eq_error hresponse
    rcases (h.response t ht).fault_of_responsePlan herror with ⟨rfl, h⟩ | h
    · exact .inl ⟨ht, h⟩
    · exact .inr h
  rcases bind_eq_error_iff.mp herror with hpredictors | ⟨predictors, -, herror⟩
  · obtain ⟨t, ht, herror⟩ := exists_of_mapM_eq_error hpredictors
    obtain ⟨hmem, hne⟩ := List.mem_filter.mp ht
    right
    -- A column that took the place of the wildcard may have any name, but is always planned.
    rcases mem_predictors_resolveDot hmem with ⟨hmem, hdot⟩ | ⟨name, rfl⟩
    · cases h.predictors t hmem with
      | dot => exact absurd rfl hdot
      | intercept => cases hne
      | expressible ht => exact ht.categoryFault_of_plan herror
    · exact absurd herror Term.plan_variable_ne_invalidTerm
  · rcases bind_eq_error_iff.mp herror with houtput | ⟨output, -, herror⟩
    · cases hfields : Schema.ofFields ((outputPlans response predictors).flatMap
          TermPlan.outputs) <;> rw [hfields] at houtput <;> cases houtput
    · cases herror

/-- Every formula that is read is well-formed, and so it can only fail for what it means. -/
theorem wellFormed_of_parse {text : String} (h : parse text = .ok f) :
    f.WellFormed ∧ ∀ s, f.FailsByMeaning s := by
  have hregular := regular_of_parse h
  refine ⟨hregular.wellFormed, fun s => ⟨fun error => ?expand, fun t fault => ?bind⟩⟩
  case expand => exact hregular.wellFormed.expand_eq_error
  case bind => exact hregular.bind_eq_invalidTerm

/-- The crossing is written out, its first operand is taken back, and the response is an
interaction, for which binding fails. -/
theorem wellFormed_of_parse_crossing : ∃ (f : Formula) (s : Schema),
    parse "g::`h i` ~ . + a && log(b::a) - a" = .ok f ∧
    f.responseTerm? = some (.interaction [.variable "g", .variable "h i"]) ∧
    f.predictors = [.dot, .function "log" (.interaction [.variable "b", .variable "a"]),
      .interaction [.variable "a",
        .function "log" (.interaction [.variable "b", .variable "a"])]] ∧
    s.names = ["a", "b", "g", "h i"] ∧
    f.bind s = .error (.invalidTerm (.interaction [.variable "g", .variable "h i"])
      .responseShape) ∧
    f.WellFormed ∧ ∀ s, f.FailsByMeaning s := by
  have hparse : parse "g::`h i` ~ . + a && log(b::a) - a" = .ok
      ⟨some ⟨.interaction [.variable "g", .variable "h i"], false⟩,
        [.dot, .function "log" (.interaction [.variable "b", .variable "a"]),
          .interaction [.variable "a",
            .function "log" (.interaction [.variable "b", .variable "a"])]], by decide⟩ := rfl
  refine ⟨_, ⟨[⟨"a", .f64⟩, ⟨"b", .f64⟩, ⟨"g", .f64⟩, ⟨"h i", .f64⟩], ?names, ?levels⟩, hparse, rfl,
    rfl, rfl, rfl, wellFormed_of_parse hparse⟩
  case names => decide
  case levels => simp [DataType.LevelsOk, DataType.levels?]

end Formula

end ModelFormula
