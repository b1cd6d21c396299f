import ModelFormula.Proofs.Binding

/-! # The columns of a schema as predictors

A formula that has the first column of a schema as its response, or none, and all other columns
as predictors. Its plans are the fields of the schema, each as a term of its own, in order.
-/

namespace ModelFormula

def Field.plan (i : Nat) (field : Field) : TermPlan where
  term := .variable field.name
  kind := match field.type.levels? with
    | some levels => .categorical i levels
    | none => .numeric (.column i)
  outputs := [field]

/-- The plans of fields that stand alone, where the first has position `start`. -/
def fieldPlans (start : Nat) (fields : List Field) : List TermPlan :=
  (fields.zipIdx start).map fun (field, i) => field.plan i

variable {s : Schema} {field : Field} {fields : List Field} {start i : Nat} {p : TermPlan}

theorem fieldPlans_cons :
    fieldPlans start (field :: fields) = field.plan start :: fieldPlans (start + 1) fields := rfl

theorem fieldPlans_append (fields fields' : List Field) :
    fieldPlans start (fields ++ fields') =
      fieldPlans start fields ++ fieldPlans (start + fields.length) fields' := by
  simp [fieldPlans, List.zipIdx_append]

theorem flatMap_outputs_fieldPlans :
    (fieldPlans start fields).flatMap TermPlan.outputs = fields := by
  induction fields generalizing start with
  | nil => rfl
  | cons field fields ih => rw [fieldPlans_cons, List.flatMap_cons, ih]; rfl

theorem Field.columns_plan (i : Nat) (field : Field) : (field.plan i).kind.columns = [i] := by
  unfold Field.plan
  cases field.type.levels? <;> rfl

theorem Field.planned (hf : s.fields[i]? = some field) (ht : field.type ≠ .string) :
    Term.Planned s (.variable field.name) (field.plan i) := by
  unfold Field.plan
  cases hlevels : field.type.levels? with
  | none => exact .number hf ht hlevels
  | some levels => exact .category hf hlevels

/-- Fields that lie in the schema from position `start` on are planned where they are. -/
theorem planned_fieldPlans
    (hf : ∀ j field, fields[j]? = some field → s.fields[start + j]? = some field)
    (ht : ∀ field ∈ fields, field.type ≠ .string) :
    List.Forall₂ (Term.Planned s) (fields.map fun field => .variable field.name)
      (fieldPlans start fields) := by
  induction fields generalizing start with
  | nil => exact .nil
  | cons field fields ih =>
    rw [List.forall_mem_cons] at ht
    refine .cons (Field.planned (hf 0 field rfl) ht.1) (ih (fun j field' h => ?_) ht.2)
    have hnext := hf (j + 1) field' (by simpa using h)
    rwa [Nat.add_assoc, Nat.add_comm 1]

theorem plan_mem_fieldPlans (h : fields[i]? = some field) :
    field.plan (start + i) ∈ fieldPlans start fields := by
  refine List.mem_map.mpr ⟨(field, start + i), ?_, rfl⟩
  exact List.mk_mem_zipIdx_iff_le_and_getElem?_sub.mpr ⟨Nat.le_add_right _ _, by simpa using h⟩

theorem mem_fieldPlans (hp : p ∈ fieldPlans start fields) :
    ∃ field ∈ fields, ∃ i, p = field.plan i := by
  obtain ⟨⟨field, i⟩, hfield, rfl⟩ := List.mem_map.mp hp
  exact ⟨field, List.fst_mem_of_mem_zipIdx hfield, i, rfl⟩

namespace Formula

/-- The formula of one column, or none, against all others, with or without intercept. -/
def tabular (first : Option String) (intercept : Bool) : Formula where
  response := first.map fun name => { term := .variable name }
  predictors := if intercept then [.dot, .intercept] else [.dot]
  nodup := by cases intercept <;> decide

section Tabular

variable {first : Option Field} {rest : List Field} (intercept : Bool)

theorem not_mem_rest (hs : s.fields = first.toList ++ rest) {field : Field} (hf : field ∈ first) :
    field.name ∉ rest.map Field.name := by
  have hnodup := s.nodup_names
  rw [hs, List.map_append, List.nodup_append] at hnodup
  intro hrest
  have hfirst : field.name ∈ first.toList.map Field.name :=
    List.mem_map_of_mem (Option.mem_toList.mpr hf)
  exact hnodup.2.2 _ hfirst _ hrest rfl

theorem responseTerm?_tabular (first : Option String) :
    (tabular first intercept).responseTerm? = first.map .variable := by
  cases first <;> rfl

theorem others_tabular (hs : s.fields = first.toList ++ rest) :
    (tabular (first.map Field.name) intercept).others s =
      rest.map fun field => .variable field.name := by
  have hmentions : (tabular (first.map Field.name) intercept).terms.flatMap Term.columns =
      first.toList.map Field.name := by
    rw [terms, responseTerm?_tabular]
    cases first <;> cases intercept <;> rfl
  have hrest : ∀ name ∈ rest.map Field.name, name ∉ first.toList.map Field.name := by
    intro name hname hfirst
    obtain ⟨field, hfield, rfl⟩ := List.mem_map.mp hfirst
    exact not_mem_rest hs (Option.mem_toList.mp hfield) hname
  rw [others, hmentions, Schema.names, hs, List.map_append, List.filter_append]
  rw [List.filter_eq_nil_iff.mpr (by simp), List.nil_append, List.filter_eq_self.mpr, List.map_map]
  · rfl
  · intro name hname
    exact decide_eq_true (hrest name hname)

theorem predictors_resolveDot_tabular (hs : s.fields = first.toList ++ rest) :
    ((tabular (first.map Field.name) intercept).resolveDot s).predictors =
      (rest.map fun field => .variable field.name) ++ if intercept then [.intercept] else [] := by
  rw [← others_tabular intercept hs]
  cases intercept <;> simp [resolveDot, resolved, tabular]

theorem hasIntercept_resolveDot_tabular (hs : s.fields = first.toList ++ rest) :
    ((tabular (first.map Field.name) intercept).resolveDot s).hasIntercept = intercept := by
  rw [hasIntercept, predictors_resolveDot_tabular intercept hs]
  cases intercept <;> simp

theorem mem_terms_tabular (hs : s.fields = first.toList ++ rest) {t : Term}
    (ht : t ∈ ((tabular (first.map Field.name) intercept).resolveDot s).terms) :
    (∃ field ∈ s.fields, t = .variable field.name) ∨ t = .intercept := by
  rw [terms, predictors_resolveDot_tabular intercept hs] at ht
  rcases List.mem_append.mp ht with ht | ht
  · obtain ⟨field, hfield, rfl⟩ : ∃ field ∈ first, Term.variable field.name = t := by
      simpa [resolveDot, tabular, responseTerm?] using ht
    exact .inl ⟨field, by simp [hs, Option.mem_def.mp hfield], rfl⟩
  rcases List.mem_append.mp ht with ht | ht
  · obtain ⟨field, hfield, rfl⟩ := List.mem_map.mp ht
    exact .inl ⟨field, by simp [hs, hfield], rfl⟩
  · cases intercept with
    | false => cases ht
    | true => exact .inr (List.mem_singleton.mp ht)

theorem fault?_tabular (hs : s.fields = first.toList ++ rest) :
    ((tabular (first.map Field.name) intercept).resolveDot s).fault? s = none := by
  refine fault?_eq_none_iff.mpr ⟨fun t ht name hname => ?_, fun t ht u hu => ?_, fun t ht hp => ?_⟩
  · rw [← Term.mem_columns_iff] at hname
    rcases mem_terms_tabular intercept hs ht with ⟨field, hfield, rfl⟩ | rfl
    · rw [Term.columns, List.mem_singleton] at hname
      exact hname ▸ List.mem_map_of_mem hfield
    · cases hname
  · obtain ⟨v, hv, -⟩ := Term.occursInside_iff.mp hu
    rcases mem_terms_tabular intercept hs ht with ⟨field, -, rfl⟩ | rfl <;> cases hv
  · -- The response is a column that no predictor is.
    obtain ⟨field, hfield, rfl⟩ : ∃ field ∈ first, Term.variable field.name = t := by
      simpa [resolveDot, tabular, responseTerm?] using ht
    rw [predictors_resolveDot_tabular intercept hs] at hp
    refine absurd ?_ (not_mem_rest hs hfield)
    cases intercept <;> simpa using hp

def tabularBound (s : Schema) (first : Option Field) (rest : List Field) : BoundFormula where
  formula := (tabular (first.map Field.name) intercept).resolveDot s
  input := s
  output := s
  response := first.map (Field.plan 0)
  predictors := fieldPlans first.toList.length rest

theorem readers_tabularBound (hs : s.fields = first.toList ++ rest) :
    (tabularBound intercept s first rest).response.toList ++
      (tabularBound intercept s first rest).predictors = fieldPlans 0 s.fields := by
  rw [hs, fieldPlans_append, Nat.zero_add]
  cases first <;> rfl

theorem plans_tabularBound (hs : s.fields = first.toList ++ rest) :
    (tabularBound intercept s first rest).plans = fieldPlans 0 s.fields := by
  rw [← readers_tabularBound intercept hs]
  refine outputPlans_eq_append fun p hp => ?_
  obtain ⟨field, hfield, i, rfl⟩ := mem_fieldPlans hp
  rintro e
  obtain ⟨f, hf, hterm⟩ : ∃ f ∈ first, Term.variable f.name = .variable field.name := by
    simpa [tabularBound, Field.plan] using e
  refine not_mem_rest hs hf ?_
  rw [Term.variable.inj hterm]
  exact List.mem_map_of_mem hfield

theorem planned_tabular (hs : s.fields = first.toList ++ rest)
    (ht : ∀ field ∈ s.fields, field.type ≠ .string) : List.Forall₂ (Term.Planned s)
      (((tabular (first.map Field.name) intercept).resolveDot s).predictors.filter (· ≠ .intercept))
      (fieldPlans first.toList.length rest) := by
  have hfilter : ((tabular (first.map Field.name) intercept).resolveDot s).predictors.filter
      (· ≠ .intercept) = rest.map fun field => .variable field.name := by
    rw [predictors_resolveDot_tabular intercept hs]
    cases intercept <;> simp [List.filter_append]
  rw [hfilter]
  refine planned_fieldPlans (fun j field hj => ?_) fun field hfield => ?_
  · rw [hs, List.getElem?_append_right (Nat.le_add_right _ _), Nat.add_sub_cancel_left, hj]
  · exact ht field (by simp [hs, hfield])

/-- A schema without columns of texts takes the formula of its columns. -/
theorem bind_tabular (hs : s.fields = first.toList ++ rest)
    (ht : ∀ field ∈ s.fields, field.type ≠ .string) :
    (tabular (first.map Field.name) intercept).bind s =
      .ok (tabularBound intercept s first rest) := by
  refine bind_iff.mpr ⟨?_, rfl, ?_, planned_tabular intercept hs ht, ?_⟩
  · exact expand_eq_ok_iff.mpr ⟨rfl, fault?_tabular intercept hs⟩
  · cases first with
    | none => exact .nil
    | some field =>
      have hfield : s.fields[0]? = some field := by rw [hs]; rfl
      have htype := ht field (List.mem_of_getElem? hfield)
      exact .cons (responsePlan_eq_ok_iff.mpr ⟨.inl ⟨_, rfl⟩, Field.planned hfield htype⟩) .nil
  · rw [plans_tabularBound intercept hs, flatMap_outputs_fieldPlans]
    rfl

end Tabular

end Formula

end ModelFormula
