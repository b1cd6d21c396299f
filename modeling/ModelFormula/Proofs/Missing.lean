import ModelFormula.Proofs.Binary64
import ModelFormula.Proofs.Cells
import ModelFormula.Proofs.FrameColumns
import ModelFormula.Proofs.OutputLayout
import ModelFormula.Proofs.TermValue

/-! # Missing cells

A cell that is missing in a source is missing in all that is computed from it, in its own row and
nowhere else. The marker changes on the way: a null or an undeclared label becomes a missing code,
which becomes NaN, and NaN is kept by products and by the functions of the formula.
-/

namespace ModelFormula

/-! ## The marker -/

/-- The cell in a row is missing under a data type: it is null, a label that is no level, or NaN. -/
def Column.MissingAt (c : Column) (type : DataType) (row : Nat) : Prop :=
  c.cell? row = none ∨ match type.levels? with
    | some levels => ∀ label ∈ c.label? row, label ∉ levels
    | none => (c.number row).isNaN = true

def BoundFormula.MissingAt (b : BoundFormula) (batch : Batch) (row index : Nat) : Prop :=
  ∃ field column, b.input.fields[index]? = some field ∧
    batch.column? field.name = some column ∧ column.MissingAt field.type row

/-- The function has no value for NaN. -/
def Elementwise.KeepsMissing (f : Elementwise) : Prop :=
  ∀ x : Float, x.isNaN = true → (f.apply x).isNaN = true

theorem Elementwise.keepsMissing_sqrt : KeepsMissing sqrt := fun _ => Binary64.isNaN_sqrt

namespace Column

variable {c : Column} {type : DataType} {row : Nat}

theorem missingAt_number_iff (h : type.levels? = none) :
    c.MissingAt type row ↔ (c.number row).isNaN = true := by
  rw [MissingAt, h]
  constructor
  · rintro (hnull | hnan)
    · rw [number_of_cell?_eq_none hnull]
      exact Binary64.isNaN_missing
    · exact hnan
  · exact .inr

theorem missingAt_label_iff {levels : List String} (h : type.levels? = some levels) :
    c.MissingAt type row ↔ ∀ label ∈ c.label? row, label ∉ levels := by
  rw [MissingAt, h]
  constructor
  · rintro (hnull | hlabel)
    · rw [label?_of_cell?_eq_none hnull]
      exact nofun
    · exact hlabel
  · exact .inr

end Column

namespace BoundFormula

variable {b : BoundFormula} {batch : Batch} {e : Evaluation} {row i : Nat}

theorem code?_eq_none_iff {field : Field} {levels : List String} (he : b.evaluate batch = .ok e)
    (hi : i ∈ b.usedColumns) (hf : b.input.fields[i]? = some field)
    (hlevels : field.type.levels? = some levels) (hrow : row < batch.rows) :
    e.code? row i = none ↔ b.MissingAt batch row i := by
  obtain ⟨column, hcolumn, -, hsource⟩ := source?_of_evaluate he hi hf
  have hsize : row < column.size := Batch.size_of_column? hcolumn ▸ hrow
  rw [Source.ofColumn_of_levels? column hlevels] at hsource
  have hmissing : b.MissingAt batch row i ↔ column.MissingAt field.type row := by
    simp [MissingAt, hf, hcolumn]
  rw [hmissing, Column.missingAt_label_iff hlevels]
  simp only [Evaluation.code?_of_source? hsource hsize, Option.bind_eq_none_iff,
    List.idxOf?_eq_none_iff, Option.mem_def]

theorem absent_of_missingAt (he : b.evaluate batch = .ok e) (hi : i ∈ b.usedColumns)
    (hrow : row < batch.rows) (h : b.MissingAt batch row i) :
    (e.number row i).isNaN = true ∧ e.code? row i = none := by
  obtain ⟨field, column, hf, hcolumn, hmissing⟩ := h
  obtain ⟨column', hcolumn', -, hsource⟩ := source?_of_evaluate he hi hf
  obtain rfl : column = column' := Option.some.inj (hcolumn.symm.trans hcolumn')
  cases hlevels : field.type.levels? with
  | none =>
    rw [Source.ofColumn_of_number column hlevels] at hsource
    rw [Column.missingAt_number_iff hlevels] at hmissing
    simp only [Evaluation.number, Evaluation.code?, hsource]
    exact ⟨hmissing, trivial⟩
  | some levels =>
    constructor
    · rw [Source.ofColumn_of_levels? column hlevels] at hsource
      simp only [Evaluation.number, hsource]
      exact Binary64.isNaN_missing
    · exact (code?_eq_none_iff he hi hf hlevels hrow).mpr ⟨field, column, hf, hcolumn, hmissing⟩

end BoundFormula

/-! ## Computed numbers -/

namespace Expr

mutual

def functions : Expr → List Elementwise
  | .column _ => []
  | .apply f arg => f :: functions arg
  | .product factors => functionsAll factors

def functionsAll : List Expr → List Elementwise
  | [] => []
  | x :: xs => functions x ++ functionsAll xs

end

variable {value : Nat → Float} {i : Nat}

mutual

theorem isNaN_eval (hvalue : (value i).isNaN = true) (x : Expr)
    (hf : ∀ f ∈ x.functions, f.KeepsMissing) (hi : i ∈ x.columns) :
    (x.eval value).isNaN = true :=
  match x with
  | .column j => by
    obtain rfl : i = j := List.mem_singleton.mp hi
    exact hvalue
  | .apply f arg => by
    rw [functions, List.forall_mem_cons] at hf
    exact hf.1 _ (isNaN_eval hvalue arg hf.2 hi)
  | .product factors => by
    obtain ⟨y, hy, hnan⟩ := exists_isNaN_evalAll hvalue factors hf hi
    exact Binary64.isNaN_productOf hy hnan

theorem exists_isNaN_evalAll (hvalue : (value i).isNaN = true) (xs : List Expr)
    (hf : ∀ f ∈ functionsAll xs, f.KeepsMissing) (hi : i ∈ columnsAll xs) :
    ∃ y ∈ evalAll value xs, y.isNaN = true :=
  match xs with
  | [] => nomatch hi
  | x :: xs => by
    rw [functionsAll, List.forall_mem_append] at hf
    rcases List.mem_append.mp hi with hi | hi
    · exact ⟨_, List.mem_cons_self, isNaN_eval hvalue x hf.1 hi⟩
    · obtain ⟨y, hy, hnan⟩ := exists_isNaN_evalAll hvalue xs hf.2 hi
      exact ⟨y, List.mem_cons_of_mem _ hy, hnan⟩

end

end Expr

def Operand.functions : Operand → List Elementwise
  | numeric x => x.functions
  | factor _ _ => []

def PlanKind.functions : PlanKind → List Elementwise
  | numeric x => x.functions
  | categorical _ _ => []
  | factorInteraction operands => operands.flatMap Operand.functions

def BoundFormula.functions (b : BoundFormula) : List Elementwise :=
  b.readers.flatMap fun p => p.kind.functions

theorem DesignColumn.mem_ofCategory {encoding : Encoding} {name : String} {i : Nat}
    {levels : List String} {c : String × DesignColumn}
    (h : c ∈ ofCategory encoding name i levels) :
    c.2 = .code i ∨ ∃ level, c.2 = .indicator i level := by
  cases encoding with
  | ordinal =>
    rw [List.mem_singleton.mp h]
    exact .inl rfl
  | oneHot | dummy =>
    obtain ⟨level, -, rfl⟩ := List.mem_map.mp h
    exact .inr ⟨level.2, rfl⟩

namespace Evaluation

variable {e : Evaluation} {p : TermPlan} {row i : Nat}

theorem indicatorOf_of_absent (h : e.code? row i = none) (level : Option Nat) :
    e.indicatorOf row i level = missing := by
  simp only [indicatorOf, h]

theorem exists_isNaN_operandValues (hnumber : (e.number row i).isNaN = true)
    (hcode : e.code? row i = none) {operands : List Operand} (codes : List Nat)
    (hf : ∀ f ∈ operands.flatMap Operand.functions, f.KeepsMissing)
    (hi : i ∈ operands.flatMap Operand.columns) :
    ∃ y ∈ e.operandValues row operands codes, y.isNaN = true := by
  induction operands generalizing codes with
  | nil => cases hi
  | cons operand operands ih =>
    rw [List.flatMap_cons, List.forall_mem_append] at hf
    rw [List.flatMap_cons, List.mem_append] at hi
    cases operand with
    | numeric x =>
      rcases hi with hi | hi
      · exact ⟨_, List.mem_cons_self, Expr.isNaN_eval hnumber x hf.1 hi⟩
      · obtain ⟨y, hy, hnan⟩ := ih codes hf.2 hi
        exact ⟨y, List.mem_cons_of_mem _ hy, hnan⟩
    | factor column levels =>
      rcases hi with hi | hi
      · obtain rfl : i = column := List.mem_singleton.mp hi
        refine ⟨_, List.mem_cons_self, ?_⟩
        rw [indicatorOf_of_absent hcode]
        exact Binary64.isNaN_missing
      · obtain ⟨y, hy, hnan⟩ := ih codes.tail hf.2 hi
        exact ⟨y, List.mem_cons_of_mem _ hy, hnan⟩

/-- All columns of a plan lack a cell where one of its sources does. -/
theorem isNaN_cell_of_absent (hnumber : (e.number row i).isNaN = true)
    (hcode : e.code? row i = none) (hf : ∀ f ∈ p.kind.functions, f.KeepsMissing)
    (hi : i ∈ p.kind.columns) {encoding : Encoding} {c : String × DesignColumn}
    (hc : c ∈ DesignColumn.ofPlan encoding p) : (e.cell c.2 row).isNaN = true := by
  unfold DesignColumn.ofPlan at hc
  cases hk : p.kind with
  | numeric x =>
    rw [hk] at hc hf hi
    obtain ⟨name, -, rfl⟩ := List.mem_map.mp hc
    exact Expr.isNaN_eval hnumber x hf hi
  | categorical column levels =>
    rw [hk] at hc hi
    obtain rfl : i = column := List.mem_singleton.mp hi
    rcases DesignColumn.mem_ofCategory hc with hc | ⟨level, hc⟩
    · rw [hc, cell, hcode]
      exact Binary64.isNaN_missing
    · rw [hc, cell, indicatorOf_of_absent hcode]
      exact Binary64.isNaN_missing
  | factorInteraction operands =>
    rw [hk] at hc hf hi
    obtain ⟨codes, -, hcodes⟩ := List.mem_map.mp (List.of_mem_zip hc).2
    obtain ⟨y, hy, hnan⟩ := exists_isNaN_operandValues hnumber hcode codes hf hi
    rw [← hcodes, cell]
    exact Binary64.isNaN_productOf hy hnan

/-- No column of a category lacks a cell where the category has a code. -/
theorem isNaN_cell_of_code {code : Nat} (hcode : e.code? row i = some code) {encoding : Encoding}
    {name : String} {levels : List String} {c : String × DesignColumn}
    (hc : c ∈ DesignColumn.ofCategory encoding name i levels) : (e.cell c.2 row).isNaN = false := by
  rcases DesignColumn.mem_ofCategory hc with hc | ⟨level, hc⟩
  · rw [hc, cell, hcode]
    exact Binary64.isNaN_ofNat code
  · simp only [hc, cell, indicatorOf, hcode]
    cases code == level <;> rfl

variable {f : Formula} {s : Schema} {b : BoundFormula} {batch : Batch}

/-- How missing cells show in the results: no row is dropped, all columns of a predictor are NaN in
the rows where one of its sources is missing, in the design matrix and in the frame if they are
computed there, and a category lacks a code in exactly the rows where it is missing. -/
structure KeepsMissing (b : BoundFormula) (batch : Batch) (e : Evaluation) : Prop where

  rows : (∀ encoding, (e.x encoding).rows = batch.rows) ∧ e.frame.rows = batch.rows ∧
    ∀ column, e.y = .ok column → column.size = batch.rows

  predictor : ∀ (encoding : Encoding) {before after : List TermPlan} {p : TermPlan} {i row j : Nat},
    b.predictors = before ++ p :: after → i ∈ p.sources → row < batch.rows →
      b.MissingAt batch row i → j < (DesignColumn.ofPlan encoding p).length →
        ∃ value, (e.x encoding).get? row
          (((b.upTo before).designColumns encoding).length + j) = some value ∧ value.isNaN = true

  computed : ∀ {p : TermPlan} {i row : Nat} {field : Field}, p ∈ b.readers →
    (∀ name, p.term ≠ .variable name) → i ∈ p.sources → row < batch.rows →
      b.MissingAt batch row i → field ∈ p.outputs →
        ∃ cells value, e.frame.column? field.name = some (.float64 cells) ∧
          cells[row]? = some (some value) ∧ value.isNaN = true

  response : ∀ {p : TermPlan} {i : Nat} {levels : List String}, b.response = some p →
    p.kind = .categorical i levels → ∃ codes, e.y = .ok (.integer .i32 codes) ∧
      ∀ row < batch.rows, codes[row]? = some none ↔ b.MissingAt batch row i

  category : ∀ {p : TermPlan} {i : Nat} {levels : List String} {field : Field}, p ∈ b.readers →
    p.kind = .categorical i levels → field ∈ p.outputs → ∃ keys, e.frame.column? field.name =
      some (.dictionary .i32 keys (.text .short (levels.map some).toArray)) ∧
        ∀ row < batch.rows, keys[row]? = some none ↔ b.MissingAt batch row i

  declared : ∀ (encoding : Encoding) {before after : List TermPlan} {p : TermPlan} {i row j : Nat}
    {levels : List String}, b.predictors = before ++ p :: after → p.kind = .categorical i levels →
      row < batch.rows → ¬ b.MissingAt batch row i →
        j < (DesignColumn.ofPlan encoding p).length → ∃ value, (e.x encoding).get? row
          (((b.upTo before).designColumns encoding).length + j) = some value ∧ value.isNaN = false

theorem isNaN_cell (he : b.evaluate batch = .ok e) (hf : ∀ g ∈ b.functions, g.KeepsMissing)
    (hp : p ∈ b.readers) (hi : i ∈ p.sources) (hrow : row < batch.rows)
    (hmissing : b.MissingAt batch row i) {encoding : Encoding} {c : String × DesignColumn}
    (hc : c ∈ DesignColumn.ofPlan encoding p) : (e.cell c.2 row).isNaN = true := by
  have hcolumn : i ∈ p.kind.columns := mem_ascending.mp hi
  have hused : i ∈ b.usedColumns := BoundFormula.mem_usedColumns.mpr ⟨p, hp, hcolumn⟩
  obtain ⟨hnumber, hcode⟩ := BoundFormula.absent_of_missingAt he hused hrow hmissing
  exact isNaN_cell_of_absent hnumber hcode
    (fun g hg => hf g (List.mem_flatMap.mpr ⟨p, hp, hg⟩)) hcolumn hc

theorem keepsMissing_predictor (he : b.evaluate batch = .ok e)
    (hf : ∀ g ∈ b.functions, g.KeepsMissing) (encoding : Encoding) {before after : List TermPlan}
    {j : Nat} (h : b.predictors = before ++ p :: after) (hi : i ∈ p.sources)
    (hrow : row < batch.rows) (hmissing : b.MissingAt batch row i)
    (hj : j < (DesignColumn.ofPlan encoding p).length) : ∃ value, (e.x encoding).get? row
      (((b.upTo before).designColumns encoding).length + j) = some value ∧ value.isNaN = true := by
  obtain ⟨rfl, hrows, -⟩ := BoundFormula.evaluate_eq_ok_iff.mp he
  have hp : p ∈ e.bound.readers := List.mem_append_right _ (by simp [h])
  refine ⟨_, get?_x_predictor (hrows ▸ hrow) h (List.getElem?_eq_getElem hj), ?_⟩
  exact isNaN_cell he hf hp hi hrow hmissing (List.getElem_mem hj)

theorem keepsMissing_computed (hb : f.bind s = .ok b) (he : b.evaluate batch = .ok e)
    (hf : ∀ g ∈ b.functions, g.KeepsMissing) {field : Field} (hp : p ∈ b.readers)
    (hterm : ∀ name, p.term ≠ .variable name) (hi : i ∈ p.sources) (hrow : row < batch.rows)
    (hmissing : b.MissingAt batch row i) (hfield : field ∈ p.outputs) :
    ∃ cells value, e.frame.column? field.name = some (.float64 cells) ∧
      cells[row]? = some (some value) ∧ value.isNaN = true := by
  obtain ⟨rfl, hrows, -⟩ := BoundFormula.evaluate_eq_ok_iff.mp he
  rcases (e.bound.planned_of_mem_readers hb hp).passes_or_computes with
    ⟨position, field, -, -, rfl⟩ | ⟨columns, hcolumns⟩
  · exact absurd rfl (hterm field.name)
  · rw [hcolumns.outputs] at hfield
    obtain ⟨c, hc, rfl⟩ := List.mem_map.mp hfield
    have hslot : (Term.computed c.1, e.computed c.2) ∈ e.frameSlots := by
      refine List.mem_flatMap.mpr ⟨p, BoundFormula.mem_plans_of_mem_readers hb hp, ?_⟩
      rw [slots_of_computes hcolumns]
      exact List.mem_map_of_mem hc
    refine ⟨_, e.cell c.2 row, column?_frame hb hslot, ?_, ?_⟩
    · simp [hrows, hrow]
    · have hdesign : c ∈ DesignColumn.ofPlan .dummy p := by rwa [hcolumns.design]
      exact isNaN_cell he hf hp hi hrow hmissing hdesign

theorem getElem?_codes_eq_none_iff (hb : f.bind s = .ok b) (he : b.evaluate batch = .ok e)
    {levels : List String} (hp : p ∈ b.readers) (hk : p.kind = .categorical i levels)
    (hrow : row < batch.rows) : (e.codes i)[row]? = some none ↔ b.MissingAt batch row i := by
  obtain ⟨-, hrows, -⟩ := BoundFormula.evaluate_eq_ok_iff.mp he
  obtain ⟨field, hused, hget, hlevels, -⟩ := b.exists_category_of_mem_readers hb hp hk
  rw [← BoundFormula.code?_eq_none_iff he hused hget hlevels hrow]
  simp [codes, hrows, hrow]

theorem keepsMissing_response (hb : f.bind s = .ok b) (he : b.evaluate batch = .ok e)
    {levels : List String} (hp : b.response = some p) (hk : p.kind = .categorical i levels) :
    ∃ codes, e.y = .ok (.integer .i32 codes) ∧
      ∀ row < batch.rows, codes[row]? = some none ↔ b.MissingAt batch row i := by
  obtain ⟨rfl, -, -⟩ := BoundFormula.evaluate_eq_ok_iff.mp he
  have hreads : p ∈ e.bound.readers := List.mem_append_left _ (Option.mem_toList.mpr hp)
  refine ⟨(e.codes i).map (·.map Int.ofNat), ?_, fun row hrow => ?_⟩
  · simp only [y, hp, hk]
  · rw [← getElem?_codes_eq_none_iff hb he hreads hk hrow]
    simp

theorem column?_frame_category (hb : f.bind s = .ok e.bound) {levels : List String} {field : Field}
    (hp : p ∈ e.bound.readers) (hk : p.kind = .categorical i levels) (hfield : field ∈ p.outputs) :
    e.frame.column? field.name =
      some (.dictionary .i32 (e.codes i) (.text .short (levels.map some).toArray)) := by
  obtain ⟨field', -, -, -, houtputs⟩ := e.bound.exists_category_of_mem_readers hb hp hk
  rw [houtputs, List.mem_singleton] at hfield
  subst hfield
  have hslots : e.slots p =
      [(field, .dictionary .i32 (e.codes i) (.text .short (levels.map some).toArray))] := by
    simp [slots, houtputs, outputColumns, hk]
  have hslot := List.mem_flatMap.mpr ⟨p, BoundFormula.mem_plans_of_mem_readers hb hp,
    hslots ▸ List.mem_singleton_self _⟩
  exact column?_frame hb hslot

theorem keepsMissing_category (hb : f.bind s = .ok b) (he : b.evaluate batch = .ok e)
    {levels : List String} {field : Field} (hp : p ∈ b.readers)
    (hk : p.kind = .categorical i levels) (hfield : field ∈ p.outputs) :
    ∃ keys, e.frame.column? field.name =
      some (.dictionary .i32 keys (.text .short (levels.map some).toArray)) ∧
        ∀ row < batch.rows, keys[row]? = some none ↔ b.MissingAt batch row i := by
  obtain ⟨rfl, -, -⟩ := BoundFormula.evaluate_eq_ok_iff.mp he
  exact ⟨e.codes i, column?_frame_category hb hp hk hfield,
    fun row hrow => getElem?_codes_eq_none_iff hb he hp hk hrow⟩

theorem keepsMissing_declared (hb : f.bind s = .ok b) (he : b.evaluate batch = .ok e)
    (encoding : Encoding) {before after : List TermPlan} {j : Nat} {levels : List String}
    (h : b.predictors = before ++ p :: after) (hk : p.kind = .categorical i levels)
    (hrow : row < batch.rows) (hdeclared : ¬ b.MissingAt batch row i)
    (hj : j < (DesignColumn.ofPlan encoding p).length) : ∃ value, (e.x encoding).get? row
      (((b.upTo before).designColumns encoding).length + j) = some value ∧ value.isNaN = false := by
  have hp : p ∈ b.readers := List.mem_append_right _ (by simp [h])
  obtain ⟨rfl, hrows, -⟩ := BoundFormula.evaluate_eq_ok_iff.mp he
  obtain ⟨c, hc⟩ : ∃ c, (DesignColumn.ofPlan encoding p)[j]? = some c :=
    ⟨_, List.getElem?_eq_getElem hj⟩
  refine ⟨_, get?_x_predictor (hrows ▸ hrow) h hc, ?_⟩
  rw [← getElem?_codes_eq_none_iff hb he hp hk hrow] at hdeclared
  obtain ⟨code, hcode⟩ : ∃ code, e.code? row i = some code := by
    simpa [codes, hrows, hrow, Option.ne_none_iff_exists'] using hdeclared
  have hcategory : DesignColumn.ofPlan encoding p =
      DesignColumn.ofCategory encoding ((p.outputs.map Field.name).headD "") i levels := by
    simp only [DesignColumn.ofPlan, hk]
  have hmem := List.mem_of_getElem? hc
  rw [hcategory] at hmem
  exact isNaN_cell_of_code hcode hmem

/-- Missing cells are kept through decoding, functions, products and encodings. -/
theorem evaluate_keepsMissing (hb : f.bind s = .ok b) (he : b.evaluate batch = .ok e)
    (hf : ∀ g ∈ b.functions, g.KeepsMissing) : e.KeepsMissing b batch := by
  obtain ⟨-, hrows, -⟩ := BoundFormula.evaluate_eq_ok_iff.mp he
  constructor
  · refine ⟨fun _ => hrows, hrows, fun column hy => ?_⟩
    rw [e.size_of_y hy, hrows]
  · intro encoding before after p i row j
    exact keepsMissing_predictor he hf encoding
  · exact keepsMissing_computed hb he hf
  · exact keepsMissing_response hb he
  · exact keepsMissing_category hb he
  · intro encoding before after p i row j levels
    exact keepsMissing_declared hb he encoding

/-- The rows of `g ~ h + g::sqrt(a)` on a batch with NaN and a null among the numbers, nulls among
the labels and a label that is not declared. -/
theorem evaluate_keepsMissing_sqrt : ∃ (f : Formula) (s : Schema) (batch : Batch)
    (b : BoundFormula) (e : Evaluation),
      f.responseTerm? = some (.variable "g") ∧
      f.predictors =
        [.variable "h", .interaction [.variable "g", .function "sqrt" (.variable "a")]] ∧
      batch.columns = [("a", .float64 #[some 4, some missing, none]),
        ("g", .text .short #[some "u", some "v", some "w"]),
        ("h", .dictionary .i8 #[some 0, none, some 1] (.text .short #[some "p", none]))] ∧
      f.bind s = .ok b ∧ b.evaluate batch = .ok e ∧ (∀ g ∈ b.functions, g.KeepsMissing) ∧
      b.MissingAt batch 2 1 ∧ e.KeepsMissing b batch := by
  have hlevels : ∀ field ∈ [Field.mk "a" .f64, ⟨"g", .categorical ["u", "v"]⟩,
      ⟨"h", .categorical ["p", "q"]⟩], field.type.LevelsOk := by
    simp [DataType.LevelsOk, DataType.levels?]
  refine ⟨⟨some ⟨.variable "g", false⟩, [.variable "h",
      .interaction [.variable "g", .function "sqrt" (.variable "a")]], by decide⟩,
    ⟨_, by decide, hlevels⟩, ⟨3, _, ?size⟩, ?b, ?e, rfl, rfl, rfl, ?bind, ?evaluate, ?functions,
    ?missing, evaluate_keepsMissing ?bind ?evaluate ?functions⟩
  case size => decide
  case bind => rfl
  case evaluate => rfl
  case functions =>
    intro g hg
    obtain rfl : g = .sqrt := List.mem_singleton.mp hg
    exact Elementwise.keepsMissing_sqrt
  case missing =>
    refine ⟨_, _, rfl, rfl, .inr ?_⟩
    rintro label ⟨⟩
    decide

end Evaluation

end ModelFormula
