import ModelFormula.Proofs.Reevaluation

/-! # Columns at other positions

A plan knows its columns by their positions. If all positions are moved, and another evaluation has
the same sources at the new positions, then every cell is computed as before: what a plan brings
into the results depends on its own sources, wherever they stand.
-/

namespace ModelFormula

variable {place : Nat → Nat}

/-! ## Moving positions -/

namespace Expr

variable {value value' : Nat → Float}

mutual

/-- The expression with its columns at other positions. -/
def move (place : Nat → Nat) : Expr → Expr
  | .column i => .column (place i)
  | .apply f arg => .apply f (move place arg)
  | .product factors => .product (moveAll place factors)

def moveAll (place : Nat → Nat) : List Expr → List Expr
  | [] => []
  | x :: xs => move place x :: moveAll place xs

end

theorem moveAll_eq (xs : List Expr) : moveAll place xs = xs.map (move place) := by
  induction xs with
  | nil => rfl
  | cons x xs ih => rw [moveAll, List.map_cons, ih]

mutual

theorem move_id (x : Expr) : x.move id = x :=
  match x with
  | .column _ => rfl
  | .apply f arg => congrArg (apply f) (move_id arg)
  | .product factors => congrArg product (moveAll_id factors)

theorem moveAll_id (xs : List Expr) : moveAll id xs = xs :=
  match xs with
  | [] => rfl
  | x :: xs => congrArg₂ List.cons (move_id x) (moveAll_id xs)

end

mutual

/-- An expression depends on its columns alone, and not on where they stand. -/
theorem eval_move (x : Expr) (h : ∀ i ∈ x.columns, value i = value' (place i)) :
    x.eval value = (x.move place).eval value' :=
  match x with
  | .column i => h i (List.mem_singleton_self i)
  | .apply f arg => congrArg f.apply (eval_move arg h)
  | .product factors => congrArg productOf (evalAll_move factors h)

theorem evalAll_move (xs : List Expr) (h : ∀ i ∈ columnsAll xs, value i = value' (place i)) :
    evalAll value xs = evalAll value' (moveAll place xs) :=
  match xs with
  | [] => rfl
  | x :: xs => by
    obtain ⟨hfirst, hrest⟩ := List.forall_mem_append.mp h
    exact congrArg₂ List.cons (eval_move x hfirst) (evalAll_move xs hrest)

end

end Expr

namespace Operand

def move (place : Nat → Nat) : Operand → Operand
  | numeric x => numeric (x.move place)
  | factor i levels => factor (place i) levels

theorem move_id (o : Operand) : o.move id = o := by
  cases o with
  | numeric x => exact congrArg numeric x.move_id
  | factor => rfl

theorem map_move_id (operands : List Operand) : operands.map (move id) = operands := by
  rw [funext move_id, List.map_id']

@[simp] theorem levelCount?_move (o : Operand) : (o.move place).levelCount? = o.levelCount? := by
  cases o <;> rfl

@[simp] theorem combinations_move (operands : List Operand) :
    combinations (operands.map (move place)) = combinations operands := by
  simp [combinations, List.filterMap_map]

end Operand

namespace PlanKind

def move (place : Nat → Nat) : PlanKind → PlanKind
  | numeric x => numeric (x.move place)
  | categorical i levels => categorical (place i) levels
  | factorInteraction operands => factorInteraction (operands.map (Operand.move place))

theorem move_id (kind : PlanKind) : kind.move id = kind := by
  cases kind with
  | numeric x => exact congrArg numeric x.move_id
  | categorical => rfl
  | factorInteraction operands => exact congrArg factorInteraction (Operand.map_move_id operands)

end PlanKind

def TermPlan.move (place : Nat → Nat) (p : TermPlan) : TermPlan :=
  { p with kind := p.kind.move place }

theorem TermPlan.move_id (p : TermPlan) : p.move id = p := by
  rw [move, PlanKind.move_id]

namespace DesignColumn

def columns : DesignColumn → List Nat
  | intercept => []
  | numeric x => x.columns
  | code i => [i]
  | indicator i _ => [i]
  | interaction operands _ => operands.flatMap Operand.columns

def move (place : Nat → Nat) : DesignColumn → DesignColumn
  | intercept => intercept
  | numeric x => numeric (x.move place)
  | code i => code (place i)
  | indicator i level => indicator (place i) level
  | interaction operands codes => interaction (operands.map (Operand.move place)) codes

theorem move_id (c : DesignColumn) : c.move id = c := by
  cases c with
  | intercept | code | indicator => rfl
  | numeric x => exact congrArg numeric x.move_id
  | interaction operands codes =>
    exact congrArg (interaction · codes) (Operand.map_move_id operands)

theorem columns_of_mem_ofPlan {encoding : Encoding} {p : TermPlan} {c : String × DesignColumn}
    (hc : c ∈ ofPlan encoding p) : c.2.columns = p.kind.columns := by
  unfold ofPlan at hc
  cases hk : p.kind with
  | numeric x =>
    rw [hk] at hc
    obtain ⟨name, -, rfl⟩ := List.mem_map.mp hc
    rfl
  | categorical i levels =>
    rw [hk] at hc
    cases encoding with
    | ordinal =>
      obtain rfl := List.mem_singleton.mp hc
      rfl
    | oneHot | dummy =>
      obtain ⟨level, -, rfl⟩ := List.mem_map.mp hc
      rfl
  | factorInteraction operands =>
    rw [hk] at hc
    obtain ⟨codes, -, hcodes⟩ := List.mem_map.mp (List.of_mem_zip hc).2
    rw [← hcodes]
    rfl

theorem ofCategory_move (encoding : Encoding) (name : String) (i : Nat) (levels : List String) :
    ofCategory encoding name (place i) levels =
      (ofCategory encoding name i levels).map fun c => (c.1, c.2.move place) := by
  cases encoding with
  | ordinal => rfl
  | oneHot | dummy =>
    rw [ofCategory, ofCategory, List.map_map]
    rfl

theorem ofPlan_move (encoding : Encoding) (p : TermPlan) :
    ofPlan encoding (p.move place) = (ofPlan encoding p).map fun c => (c.1, c.2.move place) := by
  obtain ⟨term, kind, outputs⟩ := p
  cases kind with
  | numeric x => simp [ofPlan, TermPlan.move, PlanKind.move, move]
  | categorical i levels => exact ofCategory_move _ _ _ _
  | factorInteraction operands =>
    simp [ofPlan, TermPlan.move, PlanKind.move, move, List.zip_map_right]

end DesignColumn

theorem outputPlans_move (response : Option TermPlan) (predictors : List TermPlan) :
    outputPlans (response.map (TermPlan.move place)) (predictors.map (TermPlan.move place)) =
      (outputPlans response predictors).map (TermPlan.move place) := by
  have hresponse : (response.map (TermPlan.move place)).map TermPlan.term =
      response.map TermPlan.term := by
    cases response <;> rfl
  rw [outputPlans, outputPlans, hresponse, List.filter_map, List.map_append]
  cases response <;> rfl

namespace BoundFormula

def move (place : Nat → Nat) (input : Schema) (b : BoundFormula) : BoundFormula :=
  { b with
    input
    response := b.response.map (TermPlan.move place)
    predictors := b.predictors.map (TermPlan.move place) }

theorem designColumns_move (b : BoundFormula) (input : Schema) (encoding : Encoding) :
    (b.move place input).designColumns encoding =
      (b.designColumns encoding).map fun c => (c.1, c.2.move place) := by
  have hpredictors : (b.move place input).predictors.flatMap (DesignColumn.ofPlan encoding) =
      (b.predictors.flatMap (DesignColumn.ofPlan encoding)).map fun c => (c.1, c.2.move place) := by
    rw [move, List.flatMap_map, List.map_flatMap]
    exact List.flatMap_congr fun p _ => DesignColumn.ofPlan_move encoding p
  have hintercept : (b.move place input).hasIntercept = b.hasIntercept := rfl
  rw [designColumns, designColumns, hpredictors, hintercept, List.map_append]
  cases b.hasIntercept <;> rfl

theorem readers_move (b : BoundFormula) (input : Schema) :
    (b.move place input).readers = b.readers.map (TermPlan.move place) := by
  rw [readers, readers, List.map_append, ← Option.toList_map]
  rfl

theorem plans_move (b : BoundFormula) (input : Schema) :
    (b.move place input).plans = b.plans.map (TermPlan.move place) :=
  outputPlans_move b.response b.predictors

end BoundFormula

/-! ## Evaluating at other positions -/

namespace Evaluation

variable {e e' : Evaluation} {p : TermPlan} {x : Expr} {row i : Nat}

/-- The sources of one evaluation at these positions are those of another at the new positions. -/
def Moved (e e' : Evaluation) (place : Nat → Nat) (positions : List Nat) : Prop :=
  ∀ i ∈ positions, e.source? i = e'.source? (place i)

theorem value_move (h : e.Moved e' place x.columns) :
    e.value row x = e'.value row (x.move place) :=
  Expr.eval_move x fun i hi => by simp only [number, h i hi]

theorem operandValues_move {operands : List Operand} (codes : List Nat)
    (h : e.Moved e' place (operands.flatMap Operand.columns)) :
    e.operandValues row operands codes =
      e'.operandValues row (operands.map (Operand.move place)) codes := by
  induction operands generalizing codes with
  | nil => rfl
  | cons operand operands ih =>
    obtain ⟨hfirst, hrest⟩ := List.forall_mem_append.mp h
    cases operand with
    | numeric x => exact congrArg₂ List.cons (value_move hfirst) (ih codes hrest)
    | factor i levels =>
      have hi := hfirst i (List.mem_singleton_self i)
      exact congrArg₂ List.cons (indicatorOf_congr hi _) (ih codes.tail hrest)

theorem cell_move {c : DesignColumn} (h : e.Moved e' place c.columns) :
    e.cell c row = e'.cell (c.move place) row := by
  cases c with
  | intercept => rfl
  | numeric x => exact value_move h
  | code i => simp only [cell, DesignColumn.move, code?, h i (List.mem_singleton_self i)]
  | indicator i level => exact indicatorOf_congr (h i (List.mem_singleton_self i)) _
  | interaction operands codes => exact congrArg productOf (operandValues_move codes h)

section Columns

variable (hrows : e.rows = e'.rows)

include hrows

theorem computed_move {c : DesignColumn} (h : e.Moved e' place c.columns) :
    e.computed c = e'.computed (c.move place) := by
  simp only [computed, hrows, cell_move h]

theorem passed_move (h : e.source? i = e'.source? (place i)) :
    e.passed i = e'.passed (place i) := by
  have hcomputed : e.computed (.numeric (.column i)) =
      e'.computed (.numeric (.column (place i))) := by
    refine computed_move hrows fun j hj => ?_
    rwa [List.mem_singleton.mp hj]
  simp only [passed, h, hcomputed]

theorem codes_move (h : e.source? i = e'.source? (place i)) :
    e.codes i = e'.codes (place i) := by
  simp only [codes, hrows, code?, h]

theorem outputColumns_move (h : e.Moved e' place p.kind.columns) :
    e.outputColumns p = e'.outputColumns (p.move place) := by
  obtain ⟨term, kind, outputs⟩ := p
  cases kind with
  | numeric x =>
    cases x with
    | column i => exact congrArg ([·]) (passed_move hrows (h i (List.mem_singleton_self i)))
    | apply | product => exact congrArg ([·]) (computed_move hrows h)
  | categorical i levels =>
    have hcodes := codes_move hrows (h i (List.mem_singleton_self i))
    simp only [outputColumns, TermPlan.move, PlanKind.move, hcodes]
  | factorInteraction operands =>
    simp only [outputColumns, TermPlan.move, PlanKind.move, Operand.combinations_move]
    exact List.map_congr_left fun codes _ => computed_move hrows h

end Columns

section Bound

variable {input : Schema} (hbound : e'.bound = e.bound.move place input)
  (hrows : e.rows = e'.rows) (hmoved : ∀ p ∈ e.bound.readers, e.Moved e' place p.kind.columns)

include hbound hrows hmoved

theorem x_move (encoding : Encoding) : e'.x encoding = e.x encoding := by
  have hcell : ∀ c ∈ e.bound.designColumns encoding, ∀ row,
      e.cell c.2 row = e'.cell (c.2.move place) row := by
    intro c hc row
    apply cell_move
    rcases BoundFormula.mem_designColumns hc with rfl | ⟨p, hp, hc⟩
    · exact nofun
    · rw [DesignColumn.columns_of_mem_ofPlan hc]
      exact hmoved p (List.mem_append_right _ hp)
  rw [x, x, hbound, BoundFormula.designColumns_move, List.map_map, hrows]
  refine congrArg _ (List.map_congr_left fun c hc => ?_)
  exact Prod.ext rfl (funext fun row => (hcell c hc row).symm)

theorem y_move : e'.y = e.y := by
  have hresponse : e'.bound.response = e.bound.response.map (TermPlan.move place) :=
    congrArg BoundFormula.response hbound
  unfold y
  rw [hresponse]
  cases hr : e.bound.response with
  | none => rfl
  | some p =>
    have hp := hmoved p (List.mem_append_left _ (Option.mem_toList.mpr hr))
    obtain ⟨term, kind, outputs⟩ := p
    cases kind with
    | numeric x =>
      cases x with
      | column i =>
        exact congrArg Except.ok (passed_move hrows (hp i (List.mem_singleton_self i))).symm
      | apply f arg =>
        exact congrArg Except.ok (computed_move (c := .numeric (.apply f arg)) hrows hp).symm
      | product factors =>
        exact congrArg Except.ok (computed_move (c := .numeric (.product factors)) hrows hp).symm
    | categorical i levels =>
      have hcodes := codes_move hrows (hp i (List.mem_singleton_self i))
      simp only [Option.map_some, TermPlan.move, PlanKind.move, hcodes]
    | factorInteraction operands => rfl

theorem frame_move : e'.frame = e.frame := by
  refine Batch.ext hrows.symm ?_
  change (e'.bound.plans.flatMap fun p => (p.outputs.map Field.name).zip (e'.outputColumns p)) =
    e.bound.plans.flatMap fun p => (p.outputs.map Field.name).zip (e.outputColumns p)
  rw [hbound, BoundFormula.plans_move, List.flatMap_map]
  refine List.flatMap_congr fun p hp => ?_
  rw [outputColumns_move hrows (hmoved p (e.bound.mem_readers_of_mem_plans hp))]
  rfl

/-- The same formula with its sources at other positions gives the same results. -/
theorem sameResults_move : SameResults e e' :=
  ⟨hrows.symm, x_move hbound hrows hmoved, y_move hbound hrows hmoved,
    frame_move hbound hrows hmoved⟩

end Bound

end Evaluation

end ModelFormula
