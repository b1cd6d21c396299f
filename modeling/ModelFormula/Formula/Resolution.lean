import ModelFormula.Formula.Error

/-! # Resolving a formula against a schema

The wildcard is replaced, in its place, by the columns that no term of the formula mentions, in
schema order. The result is then checked: every column exists, no placeholder is left inside a
term, and the response is no predictor unless it has been released.
-/

namespace ModelFormula.Formula

/-- The terms of a formula, the response first. -/
def terms (f : Formula) : List Term := f.responseTerm?.toList ++ f.predictors

/-- The columns of the schema that no term mentions, as terms. -/
def others (f : Formula) (s : Schema) : List Term :=
  (s.names.filter fun name => decide (name ∉ f.terms.flatMap Term.columns)).map .variable

/-- The terms that take the place of a predictor. -/
def resolved (f : Formula) (s : Schema) (term : Term) : List Term :=
  if term = .dot then f.others s else [term]

theorem mem_others {f : Formula} {s : Schema} {term : Term} :
    term ∈ f.others s ↔ ∃ name ∈ s.names,
      name ∉ f.terms.flatMap Term.columns ∧ term = .variable name := by
  simp only [others, List.mem_map, List.mem_filter, decide_eq_true_eq]
  exact ⟨fun ⟨name, h, e⟩ => ⟨name, h.1, h.2, e.symm⟩,
    fun ⟨name, h, h', e⟩ => ⟨name, ⟨h, h'⟩, e.symm⟩⟩

theorem not_mem_others_of_mem_predictors {f : Formula} {s : Schema} {term : Term}
    (h : term ∈ f.predictors) : term ∉ f.others s := by
  rw [mem_others]
  rintro ⟨name, -, hname, rfl⟩
  refine hname (List.mem_flatMap.mpr ⟨_, List.mem_append_right _ h, ?_⟩)
  simp [Term.columns]

theorem nodup_others (f : Formula) (s : Schema) : (f.others s).Nodup := by
  refine List.pairwise_map.mpr ?_
  exact (s.nodup_names.filter _).imp fun h e => h (Term.variable.inj e)

theorem nodup_flatMap_resolved (f : Formula) (s : Schema) :
    (f.predictors.flatMap (f.resolved s)).Nodup := by
  refine List.pairwise_flatMap.mpr ⟨fun term _ => ?_, ?_⟩
  · unfold resolved
    split
    · exact f.nodup_others s
    · exact List.pairwise_singleton _ _
  · refine f.nodup.imp_of_mem fun {t u} ht hu hne => ?_
    unfold resolved
    intro a ha b hb
    split at ha <;> split at hb
    · next h h' => exact absurd (h.trans h'.symm) hne
    · rintro rfl
      exact not_mem_others_of_mem_predictors hu (List.mem_singleton.mp hb ▸ ha)
    · rintro rfl
      exact not_mem_others_of_mem_predictors ht (List.mem_singleton.mp ha ▸ hb)
    · rw [List.mem_singleton.mp ha, List.mem_singleton.mp hb]
      exact hne

def resolveDot (f : Formula) (s : Schema) : Formula :=
  { f with
    predictors := f.predictors.flatMap (f.resolved s)
    nodup := f.nodup_flatMap_resolved s }

def missingColumn? (s : Schema) (term : Term) : Option String :=
  term.columns.find? fun name => decide (name ∉ s.names)

/-- What is wrong with a formula without wildcard; missing columns come first, then placeholders
inside terms, then the response among the predictors. -/
def fault? (f : Formula) (s : Schema) : Option FormulaError :=
  match f.terms.findSome? (missingColumn? s) with
  | some name => some (.unresolvedColumn name)
  | none =>
    match f.terms.find? Term.hidesPlaceholder with
    | some term => some (.invalidTerm term .nestedPlaceholder)
    | none =>
      match f.response with
      | some ⟨term, false⟩ => if term ∈ f.predictors then some (.duplicateResponse term) else none
      | _ => none

/-- The formula with the wildcard replaced, if it is sound. -/
def expand (f : Formula) (s : Schema) : Except FormulaError Formula :=
  match (f.resolveDot s).fault? s with
  | some error => .error error
  | none => .ok (f.resolveDot s)

theorem expand_eq_ok_iff {f g : Formula} {s : Schema} :
    f.expand s = .ok g ↔ f.resolveDot s = g ∧ (f.resolveDot s).fault? s = none := by
  unfold expand
  cases (f.resolveDot s).fault? s with
  | some error => simp
  | none => simp

end ModelFormula.Formula
