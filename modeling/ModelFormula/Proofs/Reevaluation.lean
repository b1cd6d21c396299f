import ModelFormula.Proofs.DesignMatrix
import ModelFormula.Proofs.FrameColumns

/-! # Evaluating a model frame

The columns of a frame, taken as predictors of their own, give the design matrix, the response and
the frame again. A column that was passed on leads to the same source as before; a computed column
is now read as the numbers that were computed.
-/

namespace ModelFormula.Evaluation

variable {e e' : Evaluation} {p : TermPlan} {field : Field} {i k start row : Nat}
  {columns : List (String × DesignColumn)} {encoding : Encoding}

/-! ## One source at two positions -/

def named (e : Evaluation) (c : String × DesignColumn) : String × (Nat → Float) :=
  (c.1, e.cell c.2)

section SameSource

variable (h : e.source? i = e'.source? k)

include h

theorem value_column_congr : e.value row (.column i) = e'.value row (.column k) := by
  simp only [value, Expr.eval, number, h]

theorem indicatorOf_congr (level : Option Nat) :
    e.indicatorOf row i level = e'.indicatorOf row k level := by
  simp only [indicatorOf, code?, h]

theorem map_named_ofCategory (name : String) (levels : List String) :
    (DesignColumn.ofCategory encoding name i levels).map e.named =
      (DesignColumn.ofCategory encoding name k levels).map e'.named := by
  cases encoding with
  | ordinal =>
    refine congrArg (fun cell => [(name, cell)]) (funext fun row => ?_)
    simp only [cell, code?, h]
  | oneHot | dummy =>
    simp only [DesignColumn.ofCategory, List.map_map]
    refine List.map_congr_left fun level _ => Prod.ext rfl (funext fun row => ?_)
    exact indicatorOf_congr h _

theorem map_named_plan :
    (DesignColumn.ofPlan encoding (field.plan i)).map e.named =
      (DesignColumn.ofPlan encoding (field.plan k)).map e'.named := by
  unfold DesignColumn.ofPlan Field.plan
  cases field.type.levels? with
  | none => exact congrArg (fun cell => [(field.name, cell)]) (funext fun _ => value_column_congr h)
  | some levels => exact map_named_ofCategory h _ _

theorem outputColumns_plan (hrows : e.rows = e'.rows) :
    e.outputColumns (field.plan i) = e'.outputColumns (field.plan k) := by
  unfold outputColumns Field.plan
  cases field.type.levels? with
  | none =>
    simp only [passed, computed, cell, h, hrows, value_column_congr h]
  | some levels => simp only [codes, code?, h, hrows]

end SameSource

/-! ## The columns of one plan -/

/-- The sources from position `start` on are decoded from these columns. -/
def Decoded (e : Evaluation) (start : Nat) (slots : List (Field × Column)) : Prop :=
  ∀ j slot, slots[j]? = some slot → e.source? (start + j) = some (.ofColumn slot.1.type slot.2)

section Decoded

variable {slot : Field × Column} {slots slots' : List (Field × Column)}

theorem decoded_cons : e.Decoded start (slot :: slots) ↔
    e.source? start = some (.ofColumn slot.1.type slot.2) ∧ e.Decoded (start + 1) slots := by
  constructor
  · intro h
    refine ⟨h 0 slot rfl, fun j slot' hj => ?_⟩
    rw [Nat.add_assoc, Nat.add_comm 1]
    exact h (j + 1) slot' (by simpa using hj)
  · rintro ⟨hfirst, hrest⟩ j slot' hj
    cases j with
    | zero =>
      obtain rfl : slot = slot' := by simpa using hj
      exact hfirst
    | succ j =>
      rw [Nat.add_comm j, ← Nat.add_assoc]
      exact hrest j slot' (by simpa using hj)

theorem decoded_append : e.Decoded start (slots ++ slots') ↔
    e.Decoded start slots ∧ e.Decoded (start + slots.length) slots' := by
  induction slots generalizing start with
  | nil => simp [Decoded]
  | cons slot slots ih =>
    rw [List.cons_append, decoded_cons, decoded_cons, ih, and_assoc, List.length_cons,
      Nat.add_assoc, Nat.add_comm 1]

end Decoded

/-- The fields of a plan, planned on their own from position `start` on, give the same columns in
another evaluation. -/
structure Carries (e e' : Evaluation) (start : Nat) (p : TermPlan) : Prop where

  design : ∀ encoding, Matrix.Agree e.rows ((DesignColumn.ofPlan encoding p).map e.named)
    (((fieldPlans start p.outputs).flatMap (DesignColumn.ofPlan encoding)).map e'.named)

  frame : (fieldPlans start p.outputs).flatMap e'.outputColumns = e.outputColumns p

theorem number_computed (c : DesignColumn) (hr : row < e.rows) :
    (e.computed c).number row = e.cell c row := by
  simp [computed, Column.number, hr]

theorem carries_computed_design
    (h : e'.Decoded start (columns.map fun c => (Term.computed c.1, e.computed c.2))) :
    Matrix.Agree e.rows (columns.map e.named)
      (((fieldPlans start (columns.map fun c => Term.computed c.1)).flatMap
        (DesignColumn.ofPlan encoding)).map e'.named) := by
  induction columns generalizing start with
  | nil => exact .nil
  | cons c columns ih =>
    obtain ⟨hfirst, hrest⟩ := decoded_cons.mp h
    refine .cons ⟨rfl, fun row hrow => ?_⟩ (ih hrest)
    have hsource : e'.source? start = some (.numeric (e.computed c.2)) := hfirst
    calc e.cell c.2 row
      _ = (e.computed c.2).number row := (number_computed c.2 hrow).symm
      _ = e'.number row start := by simp only [number, hsource]

theorem carries_computed_frame
    (h : e'.Decoded start (columns.map fun c => (Term.computed c.1, e.computed c.2))) :
    (fieldPlans start (columns.map fun c => Term.computed c.1)).flatMap e'.outputColumns =
      columns.map fun c => e.computed c.2 := by
  induction columns generalizing start with
  | nil => rfl
  | cons c columns ih =>
    obtain ⟨hfirst, hrest⟩ := decoded_cons.mp h
    have hsource : e'.source? start = some (.numeric (e.computed c.2)) := hfirst
    have hpassed : e'.passed start = e.computed c.2 := by simp only [passed, hsource]
    rw [List.map_cons, List.map_cons, fieldPlans_cons, List.flatMap_cons, ih hrest, ← hpassed]
    rfl

theorem Materializes.carries (h : e.Materializes p) (hrows : e'.rows = e.rows)
    (hd : e'.Decoded start (e.slots p)) : e.Carries e' start p := by
  cases h with
  | @passed i field column _ _ hsource hslots =>
    rw [hslots] at hd
    have hsame : e.source? i = e'.source? start := hsource.trans (decoded_cons.mp hd).1.symm
    constructor
    · intro encoding
      have hplan :
          (fieldPlans start (field.plan i).outputs).flatMap (DesignColumn.ofPlan encoding) =
            DesignColumn.ofPlan encoding (field.plan start) := List.flatMap_singleton _ _
      rw [hplan, ← map_named_plan hsame]
      exact .refl _
    · rw [outputColumns_plan hsame hrows.symm]
      exact List.flatMap_singleton _ _
  | computed h =>
    rw [slots_of_computes h] at hd
    constructor
    · intro encoding
      rw [h.design, h.outputs]
      exact carries_computed_design hd
    · rw [h.frame, h.outputs]
      exact carries_computed_frame hd

/-! ## The columns of all plans -/

theorem carries_design {ps : List TermPlan} (h : ∀ p ∈ ps, e.Materializes p)
    (hrows : e'.rows = e.rows) (hd : e'.Decoded start (ps.flatMap e.slots)) :
    Matrix.Agree e.rows ((ps.flatMap (DesignColumn.ofPlan encoding)).map e.named)
      (((fieldPlans start (ps.flatMap TermPlan.outputs)).flatMap
        (DesignColumn.ofPlan encoding)).map e'.named) := by
  induction ps generalizing start with
  | nil => exact .nil
  | cons p ps ih =>
    rw [List.forall_mem_cons] at h
    rw [List.flatMap_cons, decoded_append, h.1.length_slots] at hd
    simp only [List.flatMap_cons, fieldPlans_append, List.flatMap_append, List.map_append]
    exact List.rel_append ((h.1.carries hrows hd.1).design encoding) (ih h.2 hd.2)

theorem carries_frame {ps : List TermPlan} (h : ∀ p ∈ ps, e.Materializes p)
    (hrows : e'.rows = e.rows) (hd : e'.Decoded start (ps.flatMap e.slots)) :
    (fieldPlans start (ps.flatMap TermPlan.outputs)).flatMap e'.outputColumns =
      ps.flatMap e.outputColumns := by
  induction ps generalizing start with
  | nil => rfl
  | cons p ps ih =>
    rw [List.forall_mem_cons] at h
    rw [List.flatMap_cons, decoded_append, h.1.length_slots] at hd
    rw [List.flatMap_cons, fieldPlans_append, List.flatMap_append, List.flatMap_cons,
      (h.1.carries hrows hd.1).frame, ih h.2 hd.2]

theorem length_flatMap_slots {ps : List TermPlan} (h : ∀ p ∈ ps, e.Materializes p) :
    (ps.flatMap e.slots).length = (ps.flatMap TermPlan.outputs).length := by
  rw [List.length_flatMap, List.length_flatMap]
  exact congrArg List.sum (List.map_congr_left fun p hp => (h p hp).length_slots)

theorem getElem?_flatMap_slots {before after : List TermPlan} {j : Nat}
    (h : ∀ q ∈ before, e.Materializes q) (hj : j < (e.slots p).length) :
    ((before ++ p :: after).flatMap e.slots)[(before.flatMap TermPlan.outputs).length + j]? =
      (e.slots p)[j]? := by
  rw [List.flatMap_append, List.flatMap_cons, ← length_flatMap_slots h,
    List.getElem?_append_right (Nat.le_add_right _ _), Nat.add_sub_cancel_left,
    List.getElem?_append_left hj]

/-! ## The response -/

def responseOf (field : Field) (column : Column) : Column :=
  match field.type.levels?, column with
  | some _, .dictionary _ keys _ => .integer .i32 (keys.map (·.map Int.ofNat))
  | _, column => column

theorem exists_response_column {f : Formula} {s : Schema} (hb : f.bind s = .ok e.bound)
    (hr : e.bound.response = some p) : ∃ field column,
      p.outputs = [field] ∧ e.outputColumns p = [column] ∧ e.y = .ok (responseOf field column) := by
  obtain ⟨t, hshape, hplanned⟩ := e.bound.planned_response_of_bind hb hr
  cases hplanned with
  | @number i field _ _ hlevels =>
    refine ⟨field, e.passed i, rfl, rfl, ?_⟩
    unfold y responseOf
    rw [hr, hlevels]
  | @category i field levels _ hlevels =>
    refine ⟨field, _, rfl, rfl, ?_⟩
    unfold y responseOf
    rw [hr, hlevels]
  | @function name arg x hx =>
    obtain ⟨g, -, x, -, rfl⟩ := Term.numericExpr_function_eq_ok_iff.mp hx
    refine ⟨Term.computed _, e.computed (.numeric (.apply g x)), rfl, rfl, ?_⟩
    unfold y
    rw [hr]
    rfl
  | interaction => rcases hshape with ⟨_, h⟩ | ⟨_, _, h⟩ <;> cases h

/-! ## The frame as a batch -/

section Frame

variable {f : Formula} {s : Schema} {b' : BoundFormula}

theorem exists_column_frame (hb : f.bind s = .ok e.bound)
    (hm : ∀ p ∈ e.bound.plans, e.Materializes p) (hf : field ∈ e.bound.output.fields) :
    field.type ≠ .string ∧ ∃ column, e.frame.column? field.name = some column ∧
      field.type.accepts column.storage = true := by
  rw [fields_output hb] at hf
  obtain ⟨slot, hslot, rfl⟩ := List.mem_map.mp hf
  obtain ⟨p, hp, hmem⟩ := List.mem_flatMap.mp hslot
  obtain ⟨htype, hfits⟩ := (hm p hp).fits hmem
  exact ⟨htype, slot.2, column?_frame hb hslot, hfits⟩

theorem exists_evaluate_frame (hb : f.bind s = .ok e.bound)
    (hm : ∀ p ∈ e.bound.plans, e.Materializes p) (hinput : b'.input = e.bound.output) :
    ∃ e', b'.evaluate e.frame = .ok e' := by
  refine b'.exists_evaluate fun field hfield => ?_
  obtain ⟨-, column, hcolumn, hfits⟩ := exists_column_frame hb hm (hinput ▸ hfield)
  exact ⟨_, Source.decode_eq_ok_iff.mpr ⟨column, hcolumn, hfits, rfl⟩⟩

/-- The sources that are decoded from a frame are those of its columns, in order. -/
theorem decoded_frame (hb : f.bind s = .ok e.bound) (hinput : b'.input = e.bound.output)
    (hreaders : b'.readers = fieldPlans 0 b'.input.fields) (he' : b'.evaluate e.frame = .ok e') :
    e'.Decoded 0 e.frameSlots := by
  intro j slot hj
  have hfield : b'.input.fields[j]? = some slot.1 := by
    rw [hinput, fields_output hb, List.getElem?_map, hj]
    rfl
  have hused : j ∈ b'.usedColumns := by
    refine BoundFormula.mem_usedColumns.mpr ⟨slot.1.plan (0 + j), ?_, ?_⟩
    · rw [hreaders]
      exact plan_mem_fieldPlans hfield
    · rw [Field.columns_plan, Nat.zero_add]
      exact List.mem_singleton_self j
  obtain ⟨column, hcolumn, -, hsource⟩ := b'.source?_of_evaluate he' hused hfield
  have hslot := column?_frame hb (List.mem_of_getElem? hj)
  obtain rfl : slot.2 = column := Option.some.inj (hslot.symm.trans hcolumn)
  rw [Nat.zero_add, hsource]

end Frame

end ModelFormula.Evaluation

namespace ModelFormula

/-- The formula for the frame of a bound formula: the first column against all others if there is
a response, and all columns if there is none, with an intercept if the bound formula has one. -/
def BoundFormula.frameFormula (b : BoundFormula) : Formula :=
  let columns :=
    if b.response.isSome then Formula.againstOthers (b.output.names.headD "")
    else Formula.oneSided [.dot]
  if b.hasIntercept then columns.add .intercept else columns

namespace Evaluation

structure SameResults (e e' : Evaluation) : Prop where

  rows : e'.rows = e.rows

  x : ∀ encoding, e'.x encoding = e.x encoding

  y : e'.y = e.y

  frame : e'.frame = e.frame

variable {f f' : Formula} {s s' : Schema} {b : BoundFormula} {batch : Batch} {e e' : Evaluation}
  {first : Option Field} {rest : List Field}

theorem frameFormula_eq (hfirst : first.isSome = b.response.isSome)
    (hfields : b.output.fields = first.toList ++ rest) :
    b.frameFormula = .tabular (first.map Field.name) b.hasIntercept := by
  unfold BoundFormula.frameFormula
  rw [← hfirst, Schema.names, hfields]
  cases b.hasIntercept <;> cases first <;> rfl

theorem exists_first_field (hb : f.bind s = .ok e.bound) : ∃ first : Option Field,
    e.bound.response.toList.flatMap TermPlan.outputs = first.toList ∧
      first.isSome = e.bound.response.isSome := by
  cases hr : e.bound.response with
  | none => exact ⟨none, rfl, rfl⟩
  | some p =>
    obtain ⟨field, -, houtputs, -, -⟩ := exists_response_column hb hr
    exact ⟨some field, by simp [houtputs], rfl⟩

theorem fields_output_eq (hb : f.bind s = .ok b) (hplans : b.plans = b.readers)
    (hfirst : b.response.toList.flatMap TermPlan.outputs = first.toList) :
    b.output.fields = first.toList ++ b.predictors.flatMap TermPlan.outputs := by
  obtain ⟨-, -, -, -, houtput⟩ := Formula.bind_iff.mp hb
  rw [houtput, hplans, BoundFormula.readers, List.flatMap_append, hfirst]

/-- A second evaluation that has the columns of the frame of the first as its plans and sources,
where `first` is the field of the response. -/
structure Rereads (e e' : Evaluation) (first : Option Field) : Prop where

  materializes : ∀ p ∈ e.bound.plans, e.Materializes p

  plans : e.bound.plans = e.bound.readers

  response : e.bound.response.toList.flatMap TermPlan.outputs = first.toList

  bound : e'.bound = Formula.tabularBound e.bound.hasIntercept e.bound.output first
    (e.bound.predictors.flatMap TermPlan.outputs)

  rows : e'.rows = e.rows

  decoded : e'.Decoded 0 e.frameSlots

namespace Rereads

theorem decoded_predictors (h : e.Rereads e' first) :
    e'.Decoded first.toList.length (e.bound.predictors.flatMap e.slots) := by
  have hsplit : e.frameSlots =
      e.bound.response.toList.flatMap e.slots ++ e.bound.predictors.flatMap e.slots := by
    rw [frameSlots, h.plans, BoundFormula.readers, List.flatMap_append]
  have hlength : (e.bound.response.toList.flatMap e.slots).length = first.toList.length := by
    rw [← h.response]
    refine length_flatMap_slots fun p hp => h.materializes p ?_
    rw [h.plans]
    exact List.mem_append_left _ hp
  have hd := h.decoded
  rw [hsplit, decoded_append, Nat.zero_add, hlength] at hd
  exact hd.2

theorem x (h : e.Rereads e' first) (hb : f.bind s = .ok e.bound) (encoding : Encoding) :
    e'.x encoding = e.x encoding := by
  have hintercept : e'.bound.hasIntercept = e.bound.hasIntercept := by
    rw [h.bound]
    exact Formula.hasIntercept_resolveDot_tabular _ (fields_output_eq hb h.plans h.response)
  have hpredictors : e'.bound.predictors =
      fieldPlans first.toList.length (e.bound.predictors.flatMap TermPlan.outputs) := by
    rw [h.bound]
    rfl
  have hm : ∀ p ∈ e.bound.predictors, e.Materializes p := fun p hp =>
    h.materializes p (by rw [h.plans]; exact List.mem_append_right _ hp)
  have hagree : Matrix.Agree e.rows ((e.bound.designColumns encoding).map e.named)
      ((e'.bound.designColumns encoding).map e'.named) := by
    unfold BoundFormula.designColumns
    rw [hintercept, hpredictors, List.map_append, List.map_append]
    refine List.rel_append ?_ (carries_design hm h.rows h.decoded_predictors)
    cases e.bound.hasIntercept with
    | false => exact .nil
    | true => exact .cons ⟨rfl, fun _ _ => rfl⟩ .nil
  have hx := Matrix.ofColumns_congr hagree
  unfold Evaluation.x
  rw [h.rows]
  exact hx.symm

/-- The plans of the second evaluation give the columns that the plans of the first give. -/
theorem columns (h : e.Rereads e' first) (hb : f.bind s = .ok e.bound) :
    e'.bound.plans.flatMap e'.outputColumns = e.bound.plans.flatMap e.outputColumns := by
  obtain ⟨-, -, -, -, houtput⟩ := Formula.bind_iff.mp hb
  rw [h.bound, Formula.plans_tabularBound _ (fields_output_eq hb h.plans h.response), houtput]
  exact carries_frame h.materializes h.rows h.decoded

theorem frame (h : e.Rereads e' first) (hb : f.bind s = .ok e.bound)
    (hb' : f'.bind s' = .ok e'.bound) : e'.frame = e.frame := by
  have hfields : e'.frameSlots.map Prod.fst = e.frameSlots.map Prod.fst := by
    rw [← Evaluation.fields_output hb, ← Evaluation.fields_output hb', h.bound]
    rfl
  have hcolumns : e'.frameSlots.map Prod.snd = e.frameSlots.map Prod.snd := by
    rw [← columns_output hb, ← columns_output hb', h.columns hb]
  have hslots : e'.frameSlots = e.frameSlots := by
    rw [List.zip_of_prod hfields hcolumns]
    exact (List.zip_of_prod rfl rfl).symm
  refine Batch.ext h.rows ?_
  rw [columns_frame, columns_frame, hslots]

theorem y (h : e.Rereads e' first) (hb : f.bind s = .ok e.bound)
    (hb' : f'.bind s' = .ok e'.bound) : e'.y = e.y := by
  have hresponse : e'.bound.response = first.map (Field.plan 0) := by
    rw [h.bound]
    rfl
  cases hr : e.bound.response with
  | none =>
    have hfirst := h.response
    rw [hr] at hfirst
    obtain rfl : first = none := Option.toList_eq_nil_iff.mp hfirst.symm
    unfold Evaluation.y
    rw [hr, hresponse]
    rfl
  | some p =>
    obtain ⟨field, column, houtputs, hcolumns, hy⟩ := exists_response_column hb hr
    have hfirst := h.response
    rw [hr, Option.toList_some, List.flatMap_singleton, houtputs] at hfirst
    obtain rfl : first = some field := Option.toList_eq_singleton_iff.mp hfirst.symm
    obtain ⟨field', column', houtputs', hcolumns', hy'⟩ := exists_response_column hb' hresponse
    obtain rfl : field = field' := List.singleton_inj.mp houtputs'
    -- Both frames begin with the column of the response.
    have hcolumn : column' = column := by
      have hhead := h.columns hb
      rw [h.plans, BoundFormula.readers, hr, BoundFormula.plans, outputPlans, hresponse] at hhead
      simp only [Option.map_some, Option.toList_some, List.singleton_append, List.flatMap_cons,
        hcolumns, hcolumns'] at hhead
      exact (List.cons.inj hhead).1
    rw [hy, hy', hcolumn]

end Rereads

end Evaluation

/-- The frame carries all results: it can be evaluated with the formula for the frame, and this
gives the same results once more, unless the response is a predictor as well. -/
theorem Formula.exists_evaluate_frameFormula {f : Formula} {s : Schema} {b : BoundFormula}
    {batch : Batch} {e : Evaluation} (hb : f.bind s = .ok b)
    (hr : ∀ t ∈ b.formula.responseTerm?, t ∉ b.formula.predictors)
    (he : b.evaluate batch = .ok e) : ∃ b' e', b.frameFormula.bind b.output = .ok b' ∧
      b'.evaluate e.frame = .ok e' ∧ e.SameResults e' := by
  obtain ⟨rfl, -, -⟩ := BoundFormula.evaluate_eq_ok_iff.mp he
  have hplans := BoundFormula.plans_eq_readers hb hr
  have hm : ∀ p ∈ e.bound.plans, e.Materializes p := fun p hp =>
    .of_evaluate hb he (BoundFormula.mem_readers_of_mem_plans hp)
  obtain ⟨first, hfirst, hsome⟩ := Evaluation.exists_first_field hb
  have hfields := Evaluation.fields_output_eq hb hplans hfirst
  have htypes : ∀ field ∈ e.bound.output.fields, field.type ≠ .string := fun field hfield =>
    (Evaluation.exists_column_frame hb hm hfield).1
  have hbind := bind_tabular e.bound.hasIntercept hfields htypes
  obtain ⟨e', he'⟩ : ∃ e', (tabularBound e.bound.hasIntercept e.bound.output first
      (e.bound.predictors.flatMap TermPlan.outputs)).evaluate e.frame = .ok e' :=
    Evaluation.exists_evaluate_frame hb hm rfl
  obtain ⟨hbound, hrows, -⟩ := BoundFormula.evaluate_eq_ok_iff.mp he'
  have h : e.Rereads e' first := {
    materializes := hm
    plans := hplans
    response := hfirst
    bound := hbound
    rows := hrows
    decoded := Evaluation.decoded_frame hb rfl (readers_tabularBound _ hfields) he' }
  rw [← Evaluation.frameFormula_eq hsome hfields] at hbind
  refine ⟨_, e', hbind, he', ?_⟩
  rw [← hbound] at hbind
  exact { rows := hrows, x := h.x hb, y := h.y hb hbind, frame := h.frame hb hbind }

/-- The frame of `log(y) ~ g + a::g + 1` on a batch where a number is missing and a label is not
declared. -/
theorem Formula.exists_evaluate_frameFormula_of_category : ∃ (f : Formula) (s : Schema)
    (batch : Batch) (b : BoundFormula) (e : Evaluation),
      f.responseTerm? = some (.function "log" (.variable "y")) ∧
      f.predictors =
        [.variable "g", .interaction [.variable "a", .variable "g"], .intercept] ∧
      s.fields = [⟨"y", .f64⟩, ⟨"a", .i32⟩, ⟨"g", .categorical ["u", "v"]⟩] ∧
      batch.columns = [("g", .text .short #[some "v", some "w"]),
        ("a", .integer .i32 #[none, some 2]), ("y", .float64 #[some 1, some 3])] ∧
      f.bind s = .ok b ∧ b.evaluate batch = .ok e ∧
      (∀ t ∈ b.formula.responseTerm?, t ∉ b.formula.predictors) ∧
      ∃ b' e', b.frameFormula.bind b.output = .ok b' ∧ b'.evaluate e.frame = .ok e' ∧
        e.SameResults e' := by
  have hlevels : ∀ field ∈ [Field.mk "y" .f64, ⟨"a", .i32⟩, ⟨"g", .categorical ["u", "v"]⟩],
      field.type.LevelsOk := by
    simp [DataType.LevelsOk, DataType.levels?]
  refine ⟨⟨some ⟨.function "log" (.variable "y"), false⟩,
      [.variable "g", .interaction [.variable "a", .variable "g"], .intercept], by decide⟩,
    ⟨_, by decide, hlevels⟩, ⟨2, _, ?size⟩, ?b, ?e, rfl, rfl, rfl, rfl, ?bind, ?evaluate, ?other,
    Formula.exists_evaluate_frameFormula ?bind ?other ?evaluate⟩
  case size => decide
  case bind => rfl
  case evaluate => rfl
  case other =>
    rintro t ⟨⟩
    change Term.function "log" (.variable "y") ∉
      [Term.variable "g", .interaction [.variable "a", .variable "g"], .intercept]
    decide

end ModelFormula
