import ModelFormula.Proofs.DesignMatrix
import ModelFormula.Proofs.Frame

/-! # The value of a term

A term that is a number has a value in every row of a batch, told by recursion on the term and
from the names of the columns alone. Evaluation goes another way: through an expression over
positions of the schema and the sources at these positions. Both give the same numbers.
-/

namespace ModelFormula

def Batch.number (batch : Batch) (row : Nat) (name : String) : Float :=
  ((batch.column? name).map (Column.number row)).getD missing

namespace Term

mutual

/-- The value of a term in a row of a batch, where the term is a number. -/
def value (batch : Batch) (row : Nat) : Term → Float
  | .variable name => batch.number row name
  | .function name arg =>
    match Elementwise.ofName? name with
    | some f => f.apply (value batch row arg)
    | none => missing
  | .interaction operands => productOf (values batch row operands)
  | .crossing _ | .dot | .intercept => missing

def values (batch : Batch) (row : Nat) : List Term → List Float
  | [] => []
  | term :: terms => value batch row term :: values batch row terms

end

def valueColumn (batch : Batch) (t : Term) : Column :=
  .float64 ((Array.range batch.rows).map fun row => some (t.value batch row))

variable {s : Schema} {t : Term} {p : TermPlan} {terms : List Term} {x : Expr} {xs : List Expr}
  {batch : Batch} {row : Nat} {source : Nat → Float}

theorem values_eq (batch : Batch) (row : Nat) (terms : List Term) :
    values batch row terms = terms.map (value batch row) := by
  induction terms with
  | nil => rfl
  | cons t terms ih => rw [values, List.map_cons, ih]

/-- The numbers that an expression reads are those of the columns with the names of its fields. -/
def Reads (s : Schema) (batch : Batch) (row : Nat) (source : Nat → Float) (x : Expr) : Prop :=
  ∀ i ∈ x.columns, ∀ field, s.fields[i]? = some field → field.type.levels? = none →
    source i = batch.number row field.name

theorem map_eval_eq_values (h : List.Forall₂ (fun t x => numericExpr s t = .ok x) terms xs)
    (hvalue : ∀ t ∈ terms, ∀ x ∈ xs, numericExpr s t = .ok x →
      x.eval source = t.value batch row) :
    xs.map (Expr.eval source) = terms.map (value batch row) := by
  induction h with
  | nil => rfl
  | @cons t x terms xs hfirst _ ih =>
    rw [List.map_cons, List.map_cons,
      hvalue t List.mem_cons_self x List.mem_cons_self hfirst]
    rw [ih fun t ht x hx => hvalue t (List.mem_cons_of_mem _ ht) x (List.mem_cons_of_mem _ hx)]

/-- An expression has the value of its term if it reads the right numbers. -/
theorem eval_of_numericExpr (h : numericExpr s t = .ok x) (hx : Reads s batch row source x) :
    x.eval source = t.value batch row := by
  induction t using induction_parts generalizing x with
  | h t ih =>
    cases t with
    | «variable» name =>
      obtain ⟨i, field, hget, rfl, -, hlevels, rfl⟩ := numericExpr_column_eq_ok_iff.mp h
      rw [Expr.eval, value]
      exact hx i (List.mem_singleton_self i) field hget hlevels
    | function name arg =>
      obtain ⟨f, hf, x, harg, rfl⟩ := numericExpr_function_eq_ok_iff.mp h
      simp only [Expr.eval, value, hf]
      rw [ih arg (List.mem_singleton_self arg) harg]
      intro i hi
      exact hx i (by rwa [Expr.columns])
    | interaction terms =>
      obtain ⟨-, xs, hxs, rfl⟩ := numericExpr_interaction_eq_ok_iff.mp h
      rw [Expr.eval, value, Expr.evalAll_eq, values_eq]
      rw [map_eval_eq_values hxs]
      intro t ht x hm hfactor
      refine ih t ht hfactor fun i hi => hx i ?_
      rw [Expr.columns, Expr.columnsAll_eq]
      exact List.mem_flatMap.mpr ⟨x, hm, hi⟩
    | crossing | dot | intercept => cases h

namespace Planned

theorem numericExpr_eq (h : Planned s t p) (hk : p.kind = .numeric x) :
    numericExpr s t = .ok x := by
  cases h with
  | @number i field hget htype hlevels =>
    cases hk
    exact numericExpr_column_eq_ok_iff.mpr ⟨i, field, hget, rfl, htype, hlevels, rfl⟩
  | category => cases hk
  | function he =>
    cases hk
    exact he
  | @interaction terms operands hl hoperands =>
    unfold interactionPlan at hk
    split at hk
    · next xs hxs =>
      cases hk
      rw [eq_map_of_allNumeric? hxs, List.forall₂_map_right_iff] at hoperands
      refine numericExpr_interaction_eq_ok_iff.mpr ⟨hl, xs, ?_, rfl⟩
      refine hoperands.imp fun t x ht => ?_
      cases ht with
      | number he => exact he
    · cases hk

theorem names_of_number (h : Planned s t p) (hk : p.kind = .numeric x) :
    p.outputs.map Field.name = [t.label] := by
  cases h with
  | number =>
    rw [label_variable]
    rfl
  | category => cases hk
  | function => rfl
  | interaction =>
    unfold interactionPlan at hk ⊢
    split at hk
    · rfl
    · cases hk

end Planned

end Term

namespace BoundFormula

variable {f : Formula} {s : Schema} {b : BoundFormula} {batch : Batch} {e : Evaluation}
  {p : TermPlan} {x : Expr} {row : Nat}

theorem number_of_evaluate {i : Nat} {field : Field} (h : b.evaluate batch = .ok e)
    (hi : i ∈ b.usedColumns) (hf : b.input.fields[i]? = some field)
    (hlevels : field.type.levels? = none) : e.number row i = batch.number row field.name := by
  obtain ⟨column, hcolumn, -, hsource⟩ := source?_of_evaluate h hi hf
  rw [Source.ofColumn_of_number column hlevels] at hsource
  simp only [Evaluation.number, hsource]
  rw [Batch.number, hcolumn]
  rfl

/-- What a plan computes in a row is the value of its term. -/
theorem value_of_evaluate (hb : f.bind s = .ok b) (he : b.evaluate batch = .ok e)
    (hp : p ∈ b.readers) (hk : p.kind = .numeric x) :
    e.value row x = p.term.value batch row := by
  have hplanned := b.planned_of_mem_readers hb hp
  refine Term.eval_of_numericExpr (hplanned.numericExpr_eq hk) fun i hi field hf hlevels => ?_
  refine number_of_evaluate he (mem_usedColumns.mpr ⟨p, hp, ?_⟩) ?_ hlevels
  · rwa [hk]
  · rwa [input_of_bind hb]

theorem ofPlan_of_number (hb : f.bind s = .ok b) (hp : p ∈ b.readers) (hk : p.kind = .numeric x)
    (encoding : Encoding) :
    DesignColumn.ofPlan encoding p = [(p.term.label, .numeric x)] := by
  have hnames := (planned_of_mem_readers hb hp).names_of_number hk
  simp [DesignColumn.ofPlan, hk, hnames]

end BoundFormula

namespace Evaluation

variable {f : Formula} {s : Schema} {b : BoundFormula} {batch : Batch} {e : Evaluation}
  {p : TermPlan} {x : Expr} {before after : List TermPlan}

theorem get?_x {row column : Nat} (encoding : Encoding) (hr : row < e.rows) :
    (e.x encoding).get? row column =
      (e.bound.designColumns encoding)[column]?.map fun c => e.cell c.2 row := by
  rw [Evaluation.x, Matrix.get?_ofColumns hr, List.getElem?_map, Option.map_map]
  rfl

/-- The cells of a predictor stand after those of all predictors before it. -/
theorem get?_x_predictor {row j : Nat} {c : String × DesignColumn} {encoding : Encoding}
    (hr : row < e.rows) (h : e.bound.predictors = before ++ p :: after)
    (hc : (DesignColumn.ofPlan encoding p)[j]? = some c) :
    (e.x encoding).get? row (((e.bound.upTo before).designColumns encoding).length + j) =
      some (e.cell c.2 row) := by
  rw [get?_x encoding hr, BoundFormula.getElem?_designColumns h hc, Option.map_some]

theorem names_x (encoding : Encoding) :
    (e.x encoding).names = (e.bound.designColumns encoding).map Prod.fst := by
  simp [Evaluation.x, Matrix.ofColumns, Function.comp_def]

theorem computed_eq_valueColumn (hb : f.bind s = .ok b) (he : b.evaluate batch = .ok e)
    (hp : p ∈ b.readers) (hk : p.kind = .numeric x) :
    e.computed (.numeric x) = p.term.valueColumn batch := by
  obtain ⟨-, hrows, -⟩ := BoundFormula.evaluate_eq_ok_iff.mp he
  simp only [computed, cell, Term.valueColumn, hrows, BoundFormula.value_of_evaluate hb he hp hk]

/-- The results hold the values of the terms in the batch: the column of every numeric predictor in
the design matrix, which stands after the columns of all predictors before it, the response if it is
a function, and all columns of the frame that are computed from a number. -/
structure HoldsValues (f : Formula) (b : BoundFormula) (batch : Batch) (e : Evaluation) : Prop where

  rows : e.rows = batch.rows

  predictor : ∀ (encoding : Encoding) {before after : List TermPlan} {p : TermPlan} {x : Expr},
    b.predictors = before ++ p :: after → p.kind = .numeric x →
      (e.x encoding).names = ((b.upTo before).designColumns encoding).map Prod.fst ++
        p.term.label :: (after.flatMap (DesignColumn.ofPlan encoding)).map Prod.fst ∧
      ∀ row < batch.rows, (e.x encoding).get? row ((b.upTo before).designColumns encoding).length =
        some (p.term.value batch row)

  response : ∀ {name : String} {arg : Term}, f.responseTerm? = some (.function name arg) →
    e.y = .ok ((Term.function name arg).valueColumn batch)

  computed : ∀ {p : TermPlan} {x : Expr}, p ∈ b.plans → p.kind = .numeric x →
    (∀ i, x ≠ .column i) → e.frame.column? p.term.label = some (p.term.valueColumn batch)

theorem holds_predictor (hb : f.bind s = .ok b) (he : b.evaluate batch = .ok e)
    (encoding : Encoding) (h : b.predictors = before ++ p :: after) (hk : p.kind = .numeric x) :
    (e.x encoding).names = ((b.upTo before).designColumns encoding).map Prod.fst ++
      p.term.label :: (after.flatMap (DesignColumn.ofPlan encoding)).map Prod.fst ∧
    ∀ row < batch.rows, (e.x encoding).get? row ((b.upTo before).designColumns encoding).length =
      some (p.term.value batch row) := by
  obtain ⟨rfl, hrows, -⟩ := BoundFormula.evaluate_eq_ok_iff.mp he
  have hp : p ∈ e.bound.readers := List.mem_append_right _ (by simp [h])
  have hcolumns := BoundFormula.designColumns_eq encoding h
  rw [BoundFormula.ofPlan_of_number hb hp hk, List.singleton_append] at hcolumns
  constructor
  · rw [names_x, hcolumns, List.map_append, List.map_cons]
  · intro row hrow
    have hfirst : (DesignColumn.ofPlan encoding p)[0]? = some (p.term.label, .numeric x) := by
      rw [BoundFormula.ofPlan_of_number hb hp hk, List.getElem?_cons_zero]
    refine (get?_x_predictor (hrows ▸ hrow) h hfirst).trans ?_
    exact congrArg some (BoundFormula.value_of_evaluate hb he hp hk)

theorem holds_response (hb : f.bind s = .ok b) (he : b.evaluate batch = .ok e) {name : String}
    {arg : Term} (h : f.responseTerm? = some (.function name arg)) :
    e.y = .ok ((Term.function name arg).valueColumn batch) := by
  obtain ⟨rfl, -, -⟩ := BoundFormula.evaluate_eq_ok_iff.mp he
  obtain ⟨p, hp, hplanned⟩ := BoundFormula.exists_response_of_bind hb h
  have hreads : p ∈ e.bound.readers := List.mem_append_left _ (Option.mem_toList.mpr hp)
  have hterm := hplanned.term_eq
  cases hplanned with
  | @function name arg x hx =>
    obtain ⟨g, -, x, -, rfl⟩ := Term.numericExpr_function_eq_ok_iff.mp hx
    have hy : e.y = .ok (e.computed (.numeric (.apply g x))) := by
      unfold y
      rw [hp]
    rw [hy, computed_eq_valueColumn hb he hreads rfl, hterm]

theorem holds_computed (hb : f.bind s = .ok b) (he : b.evaluate batch = .ok e)
    (hp : p ∈ b.plans) (hk : p.kind = .numeric x) (hx : ∀ i, x ≠ .column i) :
    e.frame.column? p.term.label = some (p.term.valueColumn batch) := by
  obtain ⟨rfl, -, -⟩ := BoundFormula.evaluate_eq_ok_iff.mp he
  have hreads := e.bound.mem_readers_of_mem_plans hp
  have hcolumn : e.outputColumns p = [p.term.valueColumn batch] := by
    rw [← computed_eq_valueColumn hb he hreads hk, outputColumns, hk]
    cases x with
    | column i => exact absurd rfl (hx i)
    | apply | product => rfl
  obtain ⟨field, houtput, hname⟩ : ∃ field, p.outputs = [field] ∧ field.name = p.term.label :=
    List.map_eq_singleton_iff.mp
      ((BoundFormula.planned_of_mem_readers hb hreads).names_of_number hk)
  have hslot : (field, p.term.valueColumn batch) ∈ e.frameSlots :=
    List.mem_flatMap.mpr ⟨p, hp, by rw [slots, houtput, hcolumn]; exact List.mem_singleton_self _⟩
  rw [← hname]
  exact column?_frame hb hslot

/-- Whatever is computed through plans and sources has the value that its term has in the batch. -/
theorem evaluate_holdsValues (hb : f.bind s = .ok b) (he : b.evaluate batch = .ok e) :
    e.HoldsValues f b batch where
  rows := (BoundFormula.evaluate_eq_ok_iff.mp he).2.1
  predictor encoding _ _ _ _ := holds_predictor hb he encoding
  response := holds_response hb he
  computed := holds_computed hb he

/-- The values of `log(y) ~ a::sqrt(b)` on a batch that has its columns in another order than the
schema and lacks a cell. -/
theorem evaluate_holdsValues_product : ∃ (f : Formula) (s : Schema) (batch : Batch)
    (b : BoundFormula) (e : Evaluation),
      f.responseTerm? = some (.function "log" (.variable "y")) ∧
      f.predictors = [.interaction [.variable "a", .function "sqrt" (.variable "b")]] ∧
      s.names = ["a", "b", "y"] ∧
      batch.columns = [("y", .float64 #[some 2, some 3]), ("b", .integer .i32 #[some 9, none]),
        ("a", .float64 #[some 5, some 7])] ∧
      f.bind s = .ok b ∧ b.evaluate batch = .ok e ∧ e.HoldsValues f b batch := by
  have hlevels : ∀ field ∈ [Field.mk "a" .f64, ⟨"b", .i32⟩, ⟨"y", .f64⟩], field.type.LevelsOk := by
    simp [DataType.LevelsOk, DataType.levels?]
  refine ⟨⟨some ⟨.function "log" (.variable "y"), false⟩,
      [.interaction [.variable "a", .function "sqrt" (.variable "b")]], by decide⟩,
    ⟨_, by decide, hlevels⟩, ⟨2, _, ?size⟩, ?b, ?e, rfl, rfl, rfl, rfl, ?bind, ?evaluate,
    evaluate_holdsValues ?bind ?evaluate⟩
  case size => decide
  case bind => rfl
  case evaluate => rfl

end Evaluation

end ModelFormula
