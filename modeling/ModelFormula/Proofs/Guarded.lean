import ModelFormula.Proofs.Combinations
import ModelFormula.Proofs.Compatibility
import ModelFormula.Proofs.InteractionColumns
import ModelFormula.Proofs.TermValue

/-! # Evaluation without fallbacks

The evaluator reads NaN from a source that was not decoded as a number, and no code from one that
was not decoded as a category, so that a wrong position would look like missing data. Here is an
evaluator that gives up at every such read, at every index out of range and at every combination
that is too short. On a bound formula it never gives up, and its results are the same.
-/

namespace ModelFormula

/-! ## Reading with guards -/

/-- The number in a row, where a row that is not there and a cell that is never a number give
none. -/
def Column.numberAt? (row : Nat) : Column → Option Float
  | boolean cells => cells[row]?.map fun cell => (cell.map fun b => if b then 1 else 0).getD missing
  | integer _ cells => cells[row]?.map fun cell => (cell.map Float.ofInt).getD missing
  | float32 cells => cells[row]?.map fun cell => (cell.map Float32.toFloat).getD missing
  | float64 cells => cells[row]?.map fun cell => cell.getD missing
  | text _ _ | date32 _ | null _ | dictionary _ _ _ => none

namespace Expr

mutual

def eval? (value? : Nat → Option Float) : Expr → Option Float
  | .column i => value? i
  | .apply f arg => (eval? value? arg).map f.apply
  | .product factors => (evalAll? value? factors).map productOf

def evalAll? (value? : Nat → Option Float) : List Expr → Option (List Float)
  | [] => some []
  | x :: xs => (eval? value? x).bind fun value => (evalAll? value? xs).map (value :: ·)

end

end Expr

def outputParts? : List (Term × Operand) → List Nat → Option (List String)
  | [], _ => some []
  | (term, .numeric _) :: operands, codes => (outputParts? operands codes).map (term.label :: ·)
  | (_, .factor _ _) :: _, [] => none
  | (term, .factor _ levels) :: operands, code :: codes =>
    levels[code]?.bind fun level =>
      (outputParts? operands codes).map ((term.label ++ "_" ++ level) :: ·)

def outputName? (terms : List Term) (operands : List Operand) (codes : List Nat) : Option String :=
  (outputParts? (terms.zip operands) codes).map (String.intercalate "::")

/-- The columns of a planned predictor, where the encoding leaves out no more levels than there
are. -/
def DesignColumn.ofPlan? (encoding : Encoding) (p : TermPlan) :
    Option (List (String × DesignColumn)) :=
  match p.kind with
  | .categorical _ levels =>
    if encoding.width levels.length ≤ levels.length then some (ofPlan encoding p) else none
  | .numeric _ | .factorInteraction _ => some (ofPlan encoding p)

def BoundFormula.designColumns? (b : BoundFormula) (encoding : Encoding) :
    Option (List (String × DesignColumn)) :=
  (b.predictors.mapM (DesignColumn.ofPlan? encoding)).map fun columns =>
    (if b.hasIntercept then [(DesignColumn.interceptName, .intercept)] else []) ++ columns.flatten

namespace Evaluation

variable (e : Evaluation)

def numberAt? (row i : Nat) : Option Float :=
  match e.source? i with
  | some (.numeric column) => column.numberAt? row
  | _ => none

/-- The code of a source in a row, if it was decoded as codes; a row may have none. -/
def codeAt? (row i : Nat) : Option (Option Nat) :=
  match e.source? i with
  | some (.factor codes) => codes[row]?
  | _ => none

def valueAt? (row : Nat) (x : Expr) : Option Float := x.eval? (e.numberAt? row)

def indicatorAt? (row i level : Nat) : Option Float :=
  (e.codeAt? row i).map fun code => (code.map fun code => indicator (code == level)).getD missing

/-- The values of the operands of an interaction, where every factor takes a code. -/
def operandValuesAt? (row : Nat) : List Operand → List Nat → Option (List Float)
  | [], _ => some []
  | .numeric x :: operands, codes =>
    (e.valueAt? row x).bind fun value => (operandValuesAt? row operands codes).map (value :: ·)
  | .factor _ _ :: _, [] => none
  | .factor i _ :: operands, code :: codes =>
    (e.indicatorAt? row i code).bind fun value =>
      (operandValuesAt? row operands codes).map (value :: ·)

def cellAt? (column : DesignColumn) (row : Nat) : Option Float :=
  match column with
  | .intercept => some 1
  | .numeric x => e.valueAt? row x
  | .code i => (e.codeAt? row i).map fun code => (code.map Float.ofNat).getD missing
  | .indicator i level => e.indicatorAt? row i level
  | .interaction operands codes => (e.operandValuesAt? row operands codes).map productOf

def computed? (column : DesignColumn) : Option Column :=
  ((List.range e.rows).mapM (e.cellAt? column)).map fun cells => .float64 (cells.map some).toArray

def passed? (i : Nat) : Option Column :=
  match e.source? i with
  | some (.numeric column) => some column
  | _ => none

def codes? (i : Nat) : Option (Array (Option Nat)) :=
  ((List.range e.rows).mapM fun row => e.codeAt? row i).map List.toArray

def x? (encoding : Encoding) : Option (List (List Float)) :=
  (e.bound.designColumns? encoding).bind fun columns =>
    (List.range e.rows).mapM fun row => columns.mapM fun column => e.cellAt? column.2 row

def y? : Option (Except EvaluationError Column) :=
  match e.bound.response with
  | none => some (.error .noResponse)
  | some plan =>
    match plan.kind with
    | .numeric (.column i) => (e.passed? i).map .ok
    | .numeric x => (e.computed? (.numeric x)).map .ok
    | .categorical i _ =>
      (e.codes? i).map fun codes => .ok (.integer .i32 (codes.map (·.map Int.ofNat)))
    | .factorInteraction _ => some (.error (.unsupportedResponse plan.term))

def outputColumns? (plan : TermPlan) : Option (List Column) :=
  match plan.kind with
  | .numeric (.column i) => (e.passed? i).map ([·])
  | .numeric x => (e.computed? (.numeric x)).map ([·])
  | .categorical i levels => (e.codes? i).map fun codes =>
    [.dictionary .i32 codes (.text .short (levels.map some).toArray)]
  | .factorInteraction operands =>
    (Operand.combinations operands).mapM fun codes => e.computed? (.interaction operands codes)

def frame? : Option (List (String × Column)) :=
  (e.bound.plans.mapM fun plan => (e.outputColumns? plan).map fun columns =>
    (plan.outputs.map Field.name).zip columns).map List.flatten

end Evaluation

/-! ## What was decoded -/

/-- The source at this position was decoded as numbers, one for each row. -/
def Evaluation.DecodedAsNumbers (e : Evaluation) (i : Nat) : Prop :=
  ∃ column, e.source? i = some (.numeric column) ∧ column.size = e.rows ∧
    ∀ row < e.rows, column.numberAt? row = some (column.number row)

def Evaluation.DecodedAsCodes (e : Evaluation) (i : Nat) : Prop :=
  ∃ codes, e.source? i = some (.factor codes) ∧ codes.size = e.rows

def Operand.Decoded (e : Evaluation) : Operand → Prop
  | numeric x => ∀ i ∈ x.columns, e.DecodedAsNumbers i
  | factor i _ => e.DecodedAsCodes i

def PlanKind.Decoded (e : Evaluation) : PlanKind → Prop
  | numeric x => ∀ i ∈ x.columns, e.DecodedAsNumbers i
  | categorical i _ => e.DecodedAsCodes i
  | factorInteraction operands => ∀ operand ∈ operands, operand.Decoded e

/-- All that a column of the design matrix reads was decoded as it is read, and its codes are levels
of the factors. -/
def DesignColumn.Decoded (e : Evaluation) : DesignColumn → Prop
  | intercept => True
  | numeric x => ∀ i ∈ x.columns, e.DecodedAsNumbers i
  | code i | indicator i _ => e.DecodedAsCodes i
  | interaction operands codes => (∀ operand ∈ operands, operand.Decoded e) ∧
    List.Forall₂ (· < ·) codes (operands.filterMap Operand.levelCount?)

theorem DesignColumn.decoded_of_mem_ofPlan {e : Evaluation} {encoding : Encoding} {p : TermPlan}
    {c : String × DesignColumn} (h : p.kind.Decoded e) (hc : c ∈ ofPlan encoding p) :
    c.2.Decoded e := by
  unfold ofPlan at hc
  cases hk : p.kind with
  | numeric x =>
    rw [hk] at h hc
    obtain ⟨name, -, rfl⟩ := List.mem_map.mp hc
    exact h
  | categorical i levels =>
    rw [hk] at h hc
    cases encoding with
    | ordinal =>
      obtain rfl := List.mem_singleton.mp hc
      exact h
    | oneHot | dummy =>
      obtain ⟨level, -, rfl⟩ := List.mem_map.mp hc
      exact h
  | factorInteraction operands =>
    rw [hk] at h hc
    obtain ⟨codes, hcodes, hcolumn⟩ := List.mem_map.mp (List.of_mem_zip hc).2
    rw [← hcolumn]
    exact ⟨h, mem_levelCombinations.mp hcodes⟩

/-! ## The guards are never met -/

/-- A column of a number has a number in every row, if only a missing one. -/
theorem Column.numberAt?_eq {type : DataType} {c : Column} {row : Nat}
    (hlevels : type.levels? = none) (htype : type ≠ .string) (hstorage : c.storage = type.storage)
    (hrow : row < c.size) :
    c.numberAt? row = some (c.number row) := by
  cases c with
  | boolean | integer | float32 | float64 =>
    simp only [size] at hrow
    simp [numberAt?, number, hrow]
  | text | date32 | null | dictionary =>
    cases type with
    | string => exact absurd rfl htype
    | categorical => cases hlevels
    | bool | i8 | i16 | i32 | i64 | f32 | f64 => cases hstorage

namespace Expr

variable {value : Nat → Float} {value? : Nat → Option Float}

mutual

theorem eval?_eq (x : Expr) (h : ∀ i ∈ x.columns, value? i = some (value i)) :
    x.eval? value? = some (x.eval value) :=
  match x with
  | .column i => h i (List.mem_singleton_self i)
  | .apply f arg => by rw [eval?, eval?_eq arg h, Option.map_some, eval]
  | .product factors => by rw [eval?, evalAll?_eq factors h, Option.map_some, eval]

theorem evalAll?_eq (xs : List Expr) (h : ∀ i ∈ columnsAll xs, value? i = some (value i)) :
    evalAll? value? xs = some (evalAll value xs) :=
  match xs with
  | [] => rfl
  | x :: xs => by
    obtain ⟨hfirst, hrest⟩ := List.forall_mem_append.mp h
    rw [evalAll?, eval?_eq x hfirst, evalAll?_eq xs hrest, evalAll]
    rfl

end

end Expr

theorem outputParts?_eq {pairs : List (Term × Operand)} {codes : List Nat}
    (h : List.Forall₂ (· < ·) codes ((pairs.map Prod.snd).filterMap Operand.levelCount?)) :
    outputParts? pairs codes = some (outputParts pairs codes) := by
  induction pairs generalizing codes with
  | nil => rfl
  | cons pair pairs ih =>
    obtain ⟨term, operand⟩ := pair
    cases operand with
    | numeric x => rw [outputParts?, outputParts, ih h, Option.map_some]
    | factor i levels =>
      obtain ⟨code, codes, hcode, hcodes, rfl⟩ := List.forall₂_cons_right_iff.mp h
      have hlevel := List.getElem?_eq_getElem hcode
      simp only [outputParts?, outputParts, hlevel, ih hcodes, List.head?_cons, List.tail_cons,
        Option.bind_some, Option.map_some, Option.getD_some]

theorem outputName?_eq {terms : List Term} {operands : List Operand} {codes : List Nat}
    (hlength : operands.length ≤ terms.length)
    (h : List.Forall₂ (· < ·) codes (operands.filterMap Operand.levelCount?)) :
    outputName? terms operands codes = some (outputName terms operands codes) := by
  rw [← List.map_snd_zip hlength] at h
  rw [outputName?, outputParts?_eq h]
  rfl

namespace Evaluation

variable {e : Evaluation} {row i level : Nat} {x : Expr} {operands : List Operand}
  {codes : List Nat} {c : DesignColumn} {p : TermPlan}

theorem numberAt?_eq (h : e.DecodedAsNumbers i) (hrow : row < e.rows) :
    e.numberAt? row i = some (e.number row i) := by
  obtain ⟨column, hsource, -, hnumber⟩ := h
  simp only [numberAt?, number, hsource, hnumber row hrow]

theorem codeAt?_eq (h : e.DecodedAsCodes i) (hrow : row < e.rows) :
    e.codeAt? row i = some (e.code? row i) := by
  obtain ⟨codes, hsource, hsize⟩ := h
  have hcode : row < codes.size := hsize ▸ hrow
  simp [codeAt?, code?, hsource, hcode]

theorem valueAt?_eq (h : ∀ i ∈ x.columns, e.DecodedAsNumbers i) (hrow : row < e.rows) :
    e.valueAt? row x = some (e.value row x) :=
  x.eval?_eq fun i hi => numberAt?_eq (h i hi) hrow

theorem indicatorAt?_eq (h : e.DecodedAsCodes i) (hrow : row < e.rows) :
    e.indicatorAt? row i level = some (e.indicatorOf row i (some level)) := by
  simp only [indicatorAt?, indicatorOf, codeAt?_eq h hrow, Option.map_some]
  cases e.code? row i <;> rfl

/-- A combination has one code for each factor, so none is missing at the last of them. -/
theorem operandValuesAt?_eq (h : ∀ operand ∈ operands, operand.Decoded e) (hrow : row < e.rows)
    (hcodes : List.Forall₂ (· < ·) codes (operands.filterMap Operand.levelCount?)) :
    e.operandValuesAt? row operands codes = some (e.operandValues row operands codes) := by
  induction operands generalizing codes with
  | nil => rfl
  | cons operand operands ih =>
    obtain ⟨hfirst, hrest⟩ := List.forall_mem_cons.mp h
    cases operand with
    | numeric x =>
      rw [operandValuesAt?, operandValues, valueAt?_eq hfirst hrow, ih hrest hcodes]
      rfl
    | factor i levels =>
      obtain ⟨code, codes, -, htail, rfl⟩ := List.forall₂_cons_right_iff.mp hcodes
      rw [operandValuesAt?, operandValues, indicatorAt?_eq hfirst hrow, ih hrest htail]
      rfl

theorem cellAt?_eq (h : c.Decoded e) (hrow : row < e.rows) :
    e.cellAt? c row = some (e.cell c row) := by
  cases c with
  | intercept => rfl
  | numeric x => exact valueAt?_eq h hrow
  | code i =>
    rw [cellAt?, cell, codeAt?_eq h hrow]
    rfl
  | indicator i level => exact indicatorAt?_eq h hrow
  | interaction operands codes =>
    rw [cellAt?, cell, operandValuesAt?_eq h.1 hrow h.2]
    rfl

theorem computed?_eq (h : c.Decoded e) : e.computed? c = some (e.computed c) := by
  have hcells : (List.range e.rows).mapM (e.cellAt? c) =
      some ((List.range e.rows).map (e.cell c)) :=
    mapM_eq_some_map fun row hrow => cellAt?_eq h (List.mem_range.mp hrow)
  rw [computed?, hcells, computed]
  simp [← List.toArray_range]

theorem passed?_eq (h : e.DecodedAsNumbers i) : e.passed? i = some (e.passed i) := by
  obtain ⟨column, hsource, -⟩ := h
  simp only [passed?, passed, hsource]

theorem codes?_eq (h : e.DecodedAsCodes i) : e.codes? i = some (e.codes i) := by
  have hcodes : ((List.range e.rows).mapM fun row => e.codeAt? row i) =
      some ((List.range e.rows).map fun row => e.code? row i) :=
    mapM_eq_some_map fun row hrow => codeAt?_eq h (List.mem_range.mp hrow)
  rw [codes?, hcodes, codes]
  simp [← List.toArray_range]

theorem outputColumns?_eq (h : p.kind.Decoded e) :
    e.outputColumns? p = some (e.outputColumns p) := by
  unfold outputColumns? outputColumns
  cases hk : p.kind with
  | numeric x =>
    rw [hk] at h
    cases x with
    | column i => simp only [passed?_eq (h i (List.mem_singleton_self i)), Option.map_some]
    | apply | product =>
      simp only [computed?_eq (c := .numeric _) h, Option.map_some]
  | categorical i levels =>
    rw [hk] at h
    simp only [codes?_eq h, Option.map_some]
  | factorInteraction operands =>
    rw [hk] at h
    refine mapM_eq_some_map fun codes hcodes => computed?_eq (c := .interaction operands codes) ?_
    exact ⟨h, mem_levelCombinations.mp hcodes⟩

theorem y?_eq (h : ∀ p, e.bound.response = some p → p.kind.Decoded e) : e.y? = some e.y := by
  unfold y? y
  cases hr : e.bound.response with
  | none => rfl
  | some p =>
    have hp := h p hr
    cases hk : p.kind with
    | numeric x =>
      rw [hk] at hp
      cases x with
      | column i => simp only [passed?_eq (hp i (List.mem_singleton_self i)), Option.map_some, hk]
      | apply | product =>
        simp only [computed?_eq (c := .numeric _) hp, Option.map_some, hk]
    | categorical i levels =>
      rw [hk] at hp
      simp only [codes?_eq hp, Option.map_some, hk]
    | factorInteraction => simp only [hk]

theorem frame?_eq (h : ∀ p ∈ e.bound.plans, p.kind.Decoded e) :
    e.frame? = some e.frame.columns := by
  have hplans : (e.bound.plans.mapM fun plan => (e.outputColumns? plan).map fun columns =>
      (plan.outputs.map Field.name).zip columns) = some (e.bound.plans.map fun plan =>
        (plan.outputs.map Field.name).zip (e.outputColumns plan)) :=
    mapM_eq_some_map fun p hp => by rw [outputColumns?_eq (h p hp), Option.map_some]
  rw [frame?, hplans, Option.map_some]
  rfl

theorem x?_eq {encoding : Encoding} (h : ∀ p ∈ e.bound.predictors, p.kind.Decoded e)
    (hcolumns : e.bound.designColumns? encoding = some (e.bound.designColumns encoding)) :
    e.x? encoding = some (e.x encoding).rowList := by
  have hdecoded : ∀ c ∈ e.bound.designColumns encoding, c.2.Decoded e := by
    intro c hc
    rcases BoundFormula.mem_designColumns hc with rfl | ⟨p, hp, hc⟩
    · exact trivial
    · exact DesignColumn.decoded_of_mem_ofPlan (h p hp) hc
  have hrow : ∀ row ∈ List.range e.rows,
      ((e.bound.designColumns encoding).mapM fun c => e.cellAt? c.2 row) =
        some ((e.bound.designColumns encoding).map fun c => e.cell c.2 row) := fun row hrow =>
    mapM_eq_some_map fun c hc => cellAt?_eq (hdecoded c hc) (List.mem_range.mp hrow)
  rw [x?, hcolumns, Option.bind_some, mapM_eq_some_map hrow, x, Matrix.rowList_ofColumns]
  simp

end Evaluation

/-! ## What binding and decoding see to -/

theorem Encoding.width_le {levels : List String} (encoding : Encoding) (h : levels ≠ []) :
    encoding.width levels.length ≤ levels.length := by
  have hlength := List.length_pos_iff.mpr h
  cases encoding with
  | ordinal => exact hlength
  | oneHot => exact Nat.le_refl _
  | dummy => exact Nat.sub_le _ _

theorem Term.exists_number_of_numericExpr {s : Schema} {t : Term} {x : Expr} {i : Nat}
    (h : numericExpr s t = .ok x) (hi : i ∈ x.columns) : ∃ field, s.fields[i]? = some field ∧
      field.type ≠ .string ∧ field.type.levels? = none := by
  induction t using induction_parts generalizing x with
  | h t ih =>
    cases t with
    | «variable» name =>
      obtain ⟨j, field, hget, -, htype, hlevels, rfl⟩ := numericExpr_column_eq_ok_iff.mp h
      obtain rfl := List.mem_singleton.mp hi
      exact ⟨field, hget, htype, hlevels⟩
    | function name arg =>
      obtain ⟨f, -, x, harg, rfl⟩ := numericExpr_function_eq_ok_iff.mp h
      exact ih arg (List.mem_singleton_self arg) harg hi
    | interaction terms =>
      obtain ⟨-, xs, hxs, rfl⟩ := numericExpr_interaction_eq_ok_iff.mp h
      rw [Expr.columns, Expr.columnsAll_eq] at hi
      obtain ⟨x, hx, hi⟩ := List.mem_flatMap.mp hi
      obtain ⟨t, ht, hx⟩ := exists_mem_of_mem_right hxs hx
      exact ih t ht hx hi
    | crossing | dot | intercept => cases h

namespace BoundFormula

variable {f : Formula} {s : Schema} {b : BoundFormula} {batch : Batch} {e : Evaluation}
  {p : TermPlan} {i : Nat} {field : Field}

theorem decodedAsNumbers (he : b.evaluate batch = .ok e) (hi : i ∈ b.usedColumns)
    (hf : b.input.fields[i]? = some field) (htype : field.type ≠ .string)
    (hlevels : field.type.levels? = none) : e.DecodedAsNumbers i := by
  obtain ⟨column, hcolumn, hfits, hsource⟩ := b.source?_of_evaluate he hi hf
  rw [Source.ofColumn_of_number column hlevels] at hsource
  have hsize : column.size = e.rows := Evaluation.size_of_source? hsource
  have hstorage := (DataType.accepts_iff.mp hfits).eq_storage hlevels
  exact ⟨column, hsource, hsize, fun row hrow =>
    column.numberAt?_eq hlevels htype hstorage (hsize ▸ hrow)⟩

theorem decodedAsCodes {levels : List String} (he : b.evaluate batch = .ok e)
    (hi : i ∈ b.usedColumns) (hf : b.input.fields[i]? = some field)
    (hlevels : field.type.levels? = some levels) : e.DecodedAsCodes i := by
  obtain ⟨column, hcolumn, -, hsource⟩ := b.source?_of_evaluate he hi hf
  rw [Source.ofColumn_of_levels? column hlevels] at hsource
  exact ⟨_, hsource, Evaluation.size_of_source? hsource⟩

/-- Every plan reads sources that were decoded as the plan reads them. -/
theorem decoded_of_mem_readers (hb : f.bind s = .ok b) (he : b.evaluate batch = .ok e)
    (hp : p ∈ b.readers) : p.kind.Decoded e := by
  have hplanned := planned_of_mem_readers hb hp
  have hused : ∀ i ∈ p.kind.columns, i ∈ b.usedColumns := fun i hi =>
    mem_usedColumns.mpr ⟨p, hp, hi⟩
  rw [← b.input_of_bind hb] at hplanned
  cases hk : p.kind with
  | numeric x =>
    rw [hk] at hused
    intro i hi
    obtain ⟨field, hget, htype, hlevels⟩ :=
      Term.exists_number_of_numericExpr (hplanned.numericExpr_eq hk) hi
    exact decodedAsNumbers he (hused i hi) hget htype hlevels
  | categorical i levels =>
    obtain ⟨field, hread, hget, hlevels, -⟩ := exists_category_of_mem_readers hb hp hk
    exact decodedAsCodes he hread hget hlevels
  | factorInteraction operands =>
    rw [hk] at hused
    obtain ⟨terms, hoperands, -⟩ := hplanned.operands_of_interaction hk
    intro operand hoperand
    have hread : ∀ i ∈ operand.columns, i ∈ b.usedColumns := fun i hi =>
      hused i (List.mem_flatMap.mpr ⟨operand, hoperand, hi⟩)
    obtain ⟨t, -, ht⟩ := exists_mem_of_mem_right hoperands hoperand
    cases ht with
    | factor hget hlevels =>
      exact decodedAsCodes he (hread _ (List.mem_singleton_self _)) hget hlevels
    | number hx =>
      intro i hi
      obtain ⟨field, hget, htype, hlevels⟩ := Term.exists_number_of_numericExpr hx hi
      exact decodedAsNumbers he (hread i hi) hget htype hlevels

theorem width_le_of_mem_readers (hb : f.bind s = .ok b) (hp : p ∈ b.readers) {levels : List String}
    (hk : p.kind = .categorical i levels) (encoding : Encoding) :
    encoding.width levels.length ≤ levels.length := by
  obtain ⟨field, -, hget, hlevels, -⟩ := exists_category_of_mem_readers hb hp hk
  have hfield := b.input.levelsOk field (List.mem_of_getElem? hget)
  exact encoding.width_le (hfield levels hlevels).1

theorem designColumns?_eq (hb : f.bind s = .ok b) (encoding : Encoding) :
    b.designColumns? encoding = some (b.designColumns encoding) := by
  have hplans : b.predictors.mapM (DesignColumn.ofPlan? encoding) =
      some (b.predictors.map (DesignColumn.ofPlan encoding)) := by
    refine mapM_eq_some_map fun p hp => ?_
    unfold DesignColumn.ofPlan?
    split
    · next i levels hk =>
      exact if_pos (width_le_of_mem_readers hb (List.mem_append_right _ hp) hk encoding)
    · rfl
    · rfl
  rw [designColumns?, hplans, Option.map_some]
  rfl

/-- A predictor that is the response again is left out of the plans and reads nothing else. -/
theorem usedColumns_eq (hb : f.bind s = .ok b) :
    b.usedColumns = ascending (b.plans.flatMap TermPlan.sources) := by
  refine (pairwise_ascending _).eq_of_mem_iff (pairwise_ascending _) fun i => ?_
  simp only [mem_ascending, List.mem_flatMap]
  constructor
  · rintro ⟨p, hp, hi⟩
    exact ⟨p, mem_plans_of_mem_readers hb hp, hi⟩
  · rintro ⟨p, hp, hi⟩
    exact ⟨p, b.mem_readers_of_mem_plans hp, hi⟩

/-- The evaluator never meets a guard: its positions are in the schema, its sources are there and
were decoded as they are read, with one entry for each row, and what it computes is what is computed
with all guards. -/
structure NeverFallsBack (b : BoundFormula) (batch : Batch) (e : Evaluation) : Prop where

  used : b.usedColumns = ascending (b.plans.flatMap TermPlan.sources)

  positions : ∀ i ∈ b.usedColumns, i < b.input.fields.length

  sources : e.sources.length = b.input.fields.length

  rows : e.rows = batch.rows

  decoded : ∀ p ∈ b.readers, p.kind.Decoded e

  width : ∀ p ∈ b.readers, ∀ i levels, p.kind = .categorical i levels → ∀ encoding : Encoding,
    encoding.width levels.length ≤ levels.length

  names : ∀ p ∈ b.readers, ∀ terms operands, p.term = .interaction terms →
    p.kind = .factorInteraction operands →
      (Operand.combinations operands).mapM (outputName? terms operands) =
        some (p.outputs.map Field.name)

  y : e.y? = some e.y

  x : ∀ encoding, e.x? encoding = some (e.x encoding).rowList

  frame : e.frame? = some e.frame.columns

/-- All reads of an evaluation are in range and of the right kind. -/
theorem evaluate_neverFallsBack (hb : f.bind s = .ok b) (he : b.evaluate batch = .ok e) :
    b.NeverFallsBack batch e := by
  have hdecoded : ∀ p ∈ b.readers, p.kind.Decoded e := fun p => decoded_of_mem_readers hb he
  obtain ⟨rfl, hrows, hsources⟩ := evaluate_eq_ok_iff.mp he
  refine ⟨usedColumns_eq hb, fun i hi => ?positions, ?sources, hrows, hdecoded,
    fun p hp i levels => width_le_of_mem_readers hb hp, ?names, ?y, fun encoding => ?x, ?frame⟩
  case positions =>
    rw [input_of_bind hb]
    exact lt_of_mem_usedColumns hb hi
  case sources =>
    have hlength := (Source.decodeAll_eq_ok_iff.mp hsources).length_eq
    simpa using hlength.symm
  case names =>
    intro p hp terms operands hterm hk
    obtain ⟨terms', hterm', hoperands, hcomputes⟩ :=
      (planned_of_mem_readers hb hp).computes_of_interaction hk
    obtain rfl : terms = terms' := Term.interaction.inj (hterm.symm.trans hterm')
    have hnames : p.outputs.map Field.name =
        (Operand.combinations operands).map (outputName terms operands) := by
      simp [hcomputes.outputs, Term.computed]
    rw [hnames]
    refine mapM_eq_some_map fun codes hcodes => ?_
    exact outputName?_eq hoperands.length_eq.ge (mem_levelCombinations.mp hcodes)
  case y =>
    exact Evaluation.y?_eq fun p hp =>
      hdecoded p (List.mem_append_left _ (Option.mem_toList.mpr hp))
  case x =>
    refine Evaluation.x?_eq (fun p hp => ?_) (designColumns?_eq hb encoding)
    exact hdecoded p (List.mem_append_right _ hp)
  case frame =>
    exact Evaluation.frame?_eq fun p hp => hdecoded p (e.bound.mem_readers_of_mem_plans hp)

/-- The reads of `g ~ g + h::sqrt(a)`, where `g` is the response and a predictor again, on a batch
with missing numbers and labels and a label that is not declared. -/
theorem evaluate_neverFallsBack_released : ∃ (f : Formula) (s : Schema) (b : BoundFormula)
    (batch : Batch) (e : Evaluation),
      f.response = some ⟨.variable "g", true⟩ ∧
      f.predictors =
        [.variable "g", .interaction [.variable "h", .function "sqrt" (.variable "a")]] ∧
      s.fields = [⟨"a", .f32⟩, ⟨"g", .categorical ["u", "v"]⟩, ⟨"h", .categorical ["p", "q"]⟩] ∧
      batch.columns = [("h", .text .long #[some "q", none, some "p"]),
        ("g", .dictionary .i8 #[some 0, none, some 1] (.text .short #[some "v", some "w"])),
        ("a", .float32 #[some 4, some 9, none])] ∧
      f.bind s = .ok b ∧ b.evaluate batch = .ok e ∧ b.plans.length = 2 ∧ b.readers.length = 3 ∧
      b.NeverFallsBack batch e := by
  refine ⟨⟨some ⟨.variable "g", true⟩, _, ?distinct⟩, ⟨_, ?names, ?levels⟩, ?b, ⟨3, _, ?size⟩, ?e,
    rfl, rfl, rfl, rfl, ?bind, ?evaluate, ?plans, ?readers,
    evaluate_neverFallsBack ?bind ?evaluate⟩
  case distinct => decide
  case names => decide
  case levels => simp [DataType.LevelsOk, DataType.levels?]
  case size => decide
  case bind => rfl
  case evaluate => rfl
  case plans => rfl
  case readers => rfl

end BoundFormula

end ModelFormula
