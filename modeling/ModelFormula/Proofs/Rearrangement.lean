import Mathlib.Data.List.Find
import ModelFormula.Proofs.Compatibility
import ModelFormula.Proofs.Expansion
import ModelFormula.Proofs.Relocation

/-! # Schemas with the same columns in another order

A formula without wildcard looks at no column that it does not mention. Against two schemas that
have the same fields for its columns, in whatever order and among whatever others, it fails with the
same error or is bound to the same plans at other positions, and then gives the same results on
every batch.
-/

namespace ModelFormula

/-! ## The new positions -/

namespace Schema

variable {s s' : Schema} {name : String} {field : Field} {i : Nat}

/-- The position in another schema of the column that stands at a position of this one. -/
def place (s s' : Schema) (i : Nat) : Nat :=
  ((s.fields[i]?).bind fun field => s'.indexOf? field.name).getD 0

theorem getElem?_place (hf : s.fields[i]? = some field)
    (h : s.field? field.name = s'.field? field.name) :
    s'.fields[s.place s' i]? = some field := by
  have hfound : s'.field? field.name = some field := by
    rw [← h]
    exact field?_eq_some_iff.mpr ⟨List.mem_of_getElem? hf, rfl⟩
  obtain ⟨k, hk⟩ := List.mem_iff_getElem?.mp (field?_eq_some_iff.mp hfound).1
  have hplace : s.place s' i = k := by
    rw [place, hf, Option.bind_some, indexOf?_eq_some_iff.mpr ⟨field, hk, rfl⟩, Option.getD_some]
  rwa [hplace]

theorem lookup_place (h : s.field? name = s'.field? name) :
    s'.lookup name = (s.lookup name).map fun found => (s.place s' found.1, found.2) := by
  cases hfield : s.field? name with
  | none =>
    have hmissing {t : Schema} (ht : t.field? name = none) :
        t.lookup name = .error (.unresolvedColumn name) := by
      unfold lookup
      rw [ht]
      cases t.indexOf? name <;> rfl
    rw [hmissing hfield, hmissing (h ▸ hfield)]
    rfl
  | some field =>
    obtain ⟨hmem, rfl⟩ := field?_eq_some_iff.mp hfield
    obtain ⟨i, hi⟩ := List.mem_iff_getElem?.mp hmem
    have hindex : s.indexOf? field.name = some i := indexOf?_eq_some_iff.mpr ⟨field, hi, rfl⟩
    have hplace : s'.indexOf? field.name = some (s.place s' i) :=
      indexOf?_eq_some_iff.mpr ⟨field, getElem?_place hi h, rfl⟩
    simp only [lookup, hindex, hplace, hfield, ← h]
    split <;> rfl

end Schema

/-! ## Planning -/

theorem mapM_map_of_forall {ε α β γ : Type} {f : α → Except ε β} {g : α → Except ε γ} {r : β → γ}
    {xs : List α} (h : ∀ x ∈ xs, g x = (f x).map r) : xs.mapM g = (xs.mapM f).map (List.map r) := by
  induction xs with
  | nil => rfl
  | cons x xs ih =>
    obtain ⟨hfirst, hrest⟩ := List.forall_mem_cons.mp h
    rw [List.mapM_cons, List.mapM_cons, hfirst, ih hrest]
    cases f x with
    | error => rfl
    | ok y => cases xs.mapM f <;> rfl

namespace Term

variable {s s' : Schema} {place : Nat → Nat} {t : Term}

theorem numericExpr_place (h : ∀ name ∈ t.columns, s.field? name = s'.field? name) :
    numericExpr s' t = (numericExpr s t).map (Expr.move (s.place s')) := by
  induction t using induction_parts with
  | h t ih =>
    cases t with
    | «variable» name =>
      rw [numericExpr, numericExpr, Schema.lookup_place (h name (List.mem_singleton_self name))]
      cases s.lookup name with
      | error => rfl
      | ok found =>
        simp only [Except.map, bind, Except.bind]
        split <;> rfl
    | function name arg =>
      rw [numericExpr, numericExpr, ih arg (List.mem_singleton_self arg) h]
      cases Elementwise.ofName? name with
      | none => rfl
      | some f => cases numericExpr s arg <;> rfl
    | interaction terms =>
      rw [columns, columnsAll_eq, List.forall_mem_flatMap] at h
      have hterms : terms.mapM (numericExpr s') =
          (terms.mapM (numericExpr s)).map (List.map (Expr.move (s.place s'))) :=
        mapM_map_of_forall fun t ht => ih t ht (h t ht)
      rw [numericExpr, numericExpr, numericExprs_eq_mapM, numericExprs_eq_mapM]
      split
      · rfl
      · rw [hterms]
        cases terms.mapM (numericExpr s) with
        | error => rfl
        | ok xs => simp only [Except.map, Expr.move, Expr.moveAll_eq]
    | crossing | dot | intercept => rfl

theorem operand_place (h : ∀ name ∈ t.columns, s.field? name = s'.field? name) :
    operand s' t = (operand s t).map (Operand.move (s.place s')) := by
  cases t with
  | «variable» name =>
    rw [operand, operand, Schema.lookup_place (h name (List.mem_singleton_self name))]
    cases s.lookup name with
    | error => rfl
    | ok found =>
      simp only [Except.map, bind, Except.bind]
      split <;> rfl
  | function | interaction | crossing | dot | intercept =>
    simp only [operand, numericExpr_place h]
    cases numericExpr s _ <;> rfl

theorem allNumeric?_move (operands : List Operand) :
    allNumeric? (operands.map (Operand.move place)) =
      (allNumeric? operands).map (List.map (Expr.move place)) := by
  induction operands with
  | nil => rfl
  | cons o operands ih =>
    cases o with
    | numeric x =>
      rw [List.map_cons, Operand.move, allNumeric?, allNumeric?, ih]
      cases allNumeric? operands <;> rfl
    | factor => rfl

theorem outputParts_move (terms : List Term) (operands : List Operand) (codes : List Nat) :
    outputParts (terms.zip (operands.map (Operand.move place))) codes =
      outputParts (terms.zip operands) codes := by
  induction terms generalizing operands codes with
  | nil => rfl
  | cons t terms ih =>
    cases operands with
    | nil => rfl
    | cons o operands =>
      cases o with
      | numeric x => exact congrArg (t.label :: ·) (ih operands codes)
      | factor i levels => exact congrArg (_ :: ·) (ih operands codes.tail)

theorem interactionPlan_move (terms : List Term) (operands : List Operand) :
    interactionPlan terms (operands.map (Operand.move place)) =
      (interactionPlan terms operands).move place := by
  unfold interactionPlan
  rw [allNumeric?_move]
  cases allNumeric? operands with
  | some xs => simp [TermPlan.move, PlanKind.move, Expr.move, Expr.moveAll_eq]
  | none => simp [TermPlan.move, PlanKind.move, outputName, outputParts_move]

theorem plan_place (h : ∀ name ∈ t.columns, s.field? name = s'.field? name) :
    plan s' t = (plan s t).map (TermPlan.move (s.place s')) := by
  cases t with
  | «variable» name =>
    rw [plan, plan, Schema.lookup_place (h name (List.mem_singleton_self name))]
    cases s.lookup name with
    | error => rfl
    | ok found =>
      obtain ⟨i, field⟩ := found
      cases hlevels : field.type.levels? <;> simp [Except.map, bind, Except.bind, hlevels] <;> rfl
  | function name arg =>
    rw [plan, plan, numericExpr_place h]
    cases numericExpr s (.function name arg) <;> rfl
  | interaction terms =>
    rw [columns, columnsAll_eq, List.forall_mem_flatMap] at h
    have hterms := mapM_map_of_forall fun t ht => operand_place (h t ht)
    rw [plan, plan]
    split
    · rfl
    · rw [hterms]
      cases terms.mapM (operand s) with
      | error => rfl
      | ok operands => exact congrArg Except.ok (interactionPlan_move terms operands)
  | crossing | dot | intercept => rfl

theorem responsePlan_place (h : ∀ name ∈ t.columns, s.field? name = s'.field? name) :
    responsePlan s' t = (responsePlan s t).map (TermPlan.move (s.place s')) := by
  cases t with
  | «variable» | function => exact plan_place h
  | interaction | crossing | dot | intercept => rfl

end Term

/-! ## Binding -/

namespace Formula

variable {f : Formula} {s s' : Schema} {b : BoundFormula} {t : Term}

theorem missingColumn?_congr (h : ∀ name ∈ t.columns, s.field? name = s'.field? name) :
    missingColumn? s' t = missingColumn? s t := by
  have hmem {u : Schema} {name : String} : name ∈ u.names ↔ (u.field? name).isSome = true := by
    simp [Schema.names, Schema.field?]
  refine List.find?_congr fun name hname => decide_eq_decide.mpr (not_congr ?_)
  rw [hmem, hmem, h name hname]

section Shared

variable (h : ∀ name ∈ f.columns, s.field? name = s'.field? name)

include h

theorem columns_of_mem_terms (ht : t ∈ f.terms) :
    ∀ name ∈ t.columns, s.field? name = s'.field? name :=
  fun name hname => h name (List.mem_flatMap.mpr ⟨t, ht, hname⟩)

theorem mapM_responsePlan_place : f.responseTerm?.mapM (Term.responsePlan s') =
    (f.responseTerm?.mapM (Term.responsePlan s)).map (Option.map (TermPlan.move (s.place s'))) := by
  cases hr : f.responseTerm? with
  | none => rfl
  | some t =>
    have ht : t ∈ f.terms := List.mem_append_left _ (Option.mem_toList.mpr hr)
    rw [Option.mapM_some, Option.mapM_some, Term.responsePlan_place (columns_of_mem_terms h ht)]
    cases Term.responsePlan s t <;> rfl

theorem mapM_plan_place : (f.predictors.filter (· ≠ .intercept)).mapM (Term.plan s') =
    ((f.predictors.filter (· ≠ .intercept)).mapM (Term.plan s)).map
      (List.map (TermPlan.move (s.place s'))) := by
  refine mapM_map_of_forall fun t ht => Term.plan_place (columns_of_mem_terms h ?_)
  exact List.mem_append_right _ (List.mem_of_mem_filter ht)

section NoWildcard

variable (hdot : .dot ∉ f.predictors)

include hdot

theorem expand_congr : f.expand s' = f.expand s := by
  have hmissing : f.terms.findSome? (missingColumn? s') = f.terms.findSome? (missingColumn? s) := by
    rw [← Function.id_comp (missingColumn? s'), ← List.findSome?_map,
      List.map_congr_left fun t ht => missingColumn?_congr (columns_of_mem_terms h ht),
      List.findSome?_map, Function.id_comp]
  have hfault : f.fault? s' = f.fault? s := by
    unfold fault?
    rw [hmissing]
  unfold expand
  rw [resolveDot_of_not_mem hdot, resolveDot_of_not_mem hdot, hfault]

/-- Binding fails with the same error or gives the same plans at the new positions. -/
theorem bind_place : f.bind s' = (f.bind s).map (BoundFormula.move (s.place s') s') := by
  unfold bind
  rw [expand_congr h hdot]
  cases hexpand : f.expand s with
  | error => rfl
  | ok g =>
    obtain ⟨hg, -⟩ := expand_eq_ok_iff.mp hexpand
    obtain rfl : f = g := (resolveDot_of_not_mem hdot).symm.trans hg
    simp only [Bind.bind, Except.bind, mapM_responsePlan_place h, mapM_plan_place h]
    cases f.responseTerm?.mapM (Term.responsePlan s) with
    | error => rfl
    | ok response =>
      cases (f.predictors.filter (· ≠ .intercept)).mapM (Term.plan s) with
      | error => rfl
      | ok predictors =>
        -- Positions are not seen in the outputs, so they form the same schema or none.
        have houtputs : (outputPlans (response.map (TermPlan.move (s.place s')))
            (predictors.map (TermPlan.move (s.place s')))).flatMap TermPlan.outputs =
              (outputPlans response predictors).flatMap TermPlan.outputs := by
          rw [outputPlans_move, List.flatMap_map]
          rfl
        simp only [Except.map, houtputs]
        cases (Schema.ofFields ((outputPlans response predictors).flatMap
          TermPlan.outputs)).mapError FormulaError.outputSchema <;> rfl

end NoWildcard

end Shared

end Formula

/-! ## Evaluating -/

namespace BoundFormula

variable {f : Formula} {s s' : Schema} {b b' : BoundFormula} {batch : Batch} {e e' : Evaluation}
  {field : Field}

/-- Two bound formulas have the same terms and the same output, are evaluated on the same batches
and give the same results there. -/
structure Agrees (b b' : BoundFormula) : Prop where

  formula : b'.formula = b.formula

  terms : b'.readers.map TermPlan.term = b.readers.map TermPlan.term

  hasIntercept : b'.hasIntercept = b.hasIntercept

  output : b'.output = b.output

  succeeds : ∀ batch, (∃ e, b.evaluate batch = .ok e) ↔ ∃ e', b'.evaluate batch = .ok e'

  results : ∀ batch e e', b.evaluate batch = .ok e → b'.evaluate batch = .ok e' →
    Evaluation.SameResults e e'

theorem mem_sourceFields_iff (hb : f.bind s = .ok b) : field ∈ b.sourceFields ↔
    s.field? field.name = some field ∧ field.name ∈ b.formula.columns := by
  rw [sourceFields_eq_filter hb, List.mem_filter, decide_eq_true_eq, Schema.field?_eq_some_iff,
    and_iff_left rfl]

section Shared

variable (hb : f.bind s = .ok b) (hb' : f.bind s' = .ok b') (hformula : b'.formula = b.formula)
  (h : ∀ name ∈ b.formula.columns, s.field? name = s'.field? name)

include hb hb' hformula h

theorem exists_evaluate_congr :
    (∃ e, b.evaluate batch = .ok e) ↔ ∃ e', b'.evaluate batch = .ok e' := by
  have hfields (field : Field) : field ∈ b.sourceFields ↔ field ∈ b'.sourceFields := by
    rw [mem_sourceFields_iff hb, mem_sourceFields_iff hb', hformula]
    refine and_congr_left fun hname => ?_
    rw [h field.name hname]
  rw [exists_evaluate_iff hb, exists_evaluate_iff hb']
  simp only [hfields]

theorem moved_of_evaluate (he : b.evaluate batch = .ok e) (he' : b'.evaluate batch = .ok e')
    {positions : List Nat} (hp : ∀ i ∈ positions, i ∈ b.usedColumns) :
    e.Moved e' (s.place s') positions := by
  intro i hi
  have hused := hp i hi
  obtain ⟨field, hf⟩ : ∃ field, s.fields[i]? = some field :=
    ⟨_, List.getElem?_eq_getElem (lt_of_mem_usedColumns hb hused)⟩
  have hname : field.name ∈ b.formula.columns := (mem_usedColumns_of_field hb hf).mp hused
  have hf' := Schema.getElem?_place hf (h field.name hname)
  have hused' : s.place s' i ∈ b'.usedColumns :=
    (mem_usedColumns_of_field hb' hf').mpr (hformula ▸ hname)
  obtain ⟨column, hcolumn, -, hsource⟩ :=
    b.source?_of_evaluate he hused (by rwa [b.input_of_bind hb])
  obtain ⟨column', hcolumn', -, hsource'⟩ :=
    b'.source?_of_evaluate he' hused' (by rwa [b'.input_of_bind hb'])
  obtain rfl : column = column' := Option.some.inj (hcolumn.symm.trans hcolumn')
  rw [hsource, hsource']

end Shared

end BoundFormula

/-- Against two schemas that have the same fields for the columns of a formula without wildcard,
binding fails with the same error or gives bound formulas that agree. -/
theorem Formula.bind_agrees {f : Formula} {s s' : Schema} (hdot : .dot ∉ f.predictors)
    (h : ∀ name ∈ f.columns, s.field? name = s'.field? name) :
    (∃ error, f.bind s = .error error ∧ f.bind s' = .error error) ∨
      ∃ b b', f.bind s = .ok b ∧ f.bind s' = .ok b' ∧ b.Agrees b' := by
  have hplace := bind_place h hdot
  cases hb : f.bind s with
  | error error =>
    rw [hb] at hplace
    exact .inl ⟨error, rfl, hplace⟩
  | ok b =>
    rw [hb] at hplace
    have hb' : f.bind s' = .ok (b.move (s.place s') s') := hplace
    obtain ⟨hf, -⟩ := expand_eq_ok_iff.mp (bind_iff.mp hb).1
    obtain rfl : f = b.formula := (resolveDot_of_not_mem hdot).symm.trans hf
    refine .inr ⟨b, _, rfl, hb', rfl, ?terms, rfl, rfl, fun batch => ?succeeds, ?results⟩
    case terms =>
      rw [BoundFormula.readers_move, List.map_map]
      rfl
    case succeeds => exact BoundFormula.exists_evaluate_congr hb hb' rfl h
    case results =>
      intro batch e e' he he'
      have hmoved : ∀ p ∈ b.readers, e.Moved e' (s.place s') p.kind.columns := fun p hp =>
        BoundFormula.moved_of_evaluate hb hb' rfl h he he' fun i hi =>
          BoundFormula.mem_usedColumns.mpr ⟨p, hp, hi⟩
      obtain ⟨rfl, hrows, -⟩ := BoundFormula.evaluate_eq_ok_iff.mp he
      obtain ⟨hbound', hrows', -⟩ := BoundFormula.evaluate_eq_ok_iff.mp he'
      exact Evaluation.sameResults_move hbound' (hrows.trans hrows'.symm) hmoved

/-- For `y ~ log(a) + a::g` the first schema has the columns in the order `a`, `g`, `y`, and the
second has them the other way round and a column of texts among them. -/
theorem Formula.bind_agrees_reversed : ∃ (f : Formula) (s s' : Schema),
    f.responseTerm? = some (.variable "y") ∧
    f.predictors =
      [.function "log" (.variable "a"), .interaction [.variable "a", .variable "g"]] ∧
    s.fields = [⟨"a", .i32⟩, ⟨"g", .categorical ["u", "v"]⟩, ⟨"y", .f64⟩] ∧
    s'.fields =
      [⟨"y", .f64⟩, ⟨"t", .string⟩, ⟨"g", .categorical ["u", "v"]⟩, ⟨"a", .i32⟩] ∧
    .dot ∉ f.predictors ∧ (∀ name ∈ f.columns, s.field? name = s'.field? name) ∧
    (∃ b, f.bind s = .ok b ∧ b.usedColumns = [0, 1, 2]) ∧
    (∃ b', f.bind s' = .ok b' ∧ b'.usedColumns = [0, 2, 3]) ∧
    ((∃ error, f.bind s = .error error ∧ f.bind s' = .error error) ∨
      ∃ b b', f.bind s = .ok b ∧ f.bind s' = .ok b' ∧ b.Agrees b') := by
  refine ⟨⟨some ⟨.variable "y", false⟩, _, ?distinct⟩, ⟨_, ?names, ?levels⟩,
    ⟨_, ?names', ?levels'⟩, rfl, rfl, rfl, rfl, ?dot, ?shared, ⟨_, rfl, rfl⟩, ⟨_, rfl, rfl⟩,
    Formula.bind_agrees ?dot ?shared⟩
  case distinct => decide
  case names => decide
  case levels => simp [DataType.LevelsOk, DataType.levels?]
  case names' => decide
  case levels' => simp [DataType.LevelsOk, DataType.levels?]
  case dot => decide
  case shared => decide

end ModelFormula
