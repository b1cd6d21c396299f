import Mathlib.Algebra.Ring.Nat
import ModelFormula.Model
import ModelFormula.Proofs.Cells
import ModelFormula.Proofs.DesignMatrix
import ModelFormula.Proofs.Slices

/-! # Partitions

A batch that is cut into consecutive slices is evaluated slice by slice to the same results: the
rows of the matrices, the response and every column of the frame come one slice after the other.
Batches of any kind are evaluated one by one in order, up to the first that fails.
-/

namespace ModelFormula

def intervals : Nat → List Nat → List (Nat × Nat)
  | _, [] => []
  | start, size :: sizes => (start, start + size) :: intervals (start + size) sizes

def Batch.cut (batch : Batch) (sizes : List Nat) : List Batch :=
  (intervals 0 sizes).map fun interval => batch.slice interval.1 interval.2

theorem sum_intervals {start rows : Nat} {sizes : List Nat} (h : start + sizes.sum ≤ rows) :
    ((intervals start sizes).map fun interval => min interval.2 rows - interval.1).sum =
      sizes.sum := by
  induction sizes generalizing start with
  | nil => rfl
  | cons size sizes ih =>
    rw [List.sum_cons, ← Nat.add_assoc] at h
    have hfirst : min (start + size) rows - start = size := by omega
    rw [intervals, List.map_cons, List.sum_cons, List.sum_cons, ih h, hfirst]

theorem flatMap_intervals {α : Type} {xs : List α} {start : Nat} {sizes : List Nat}
    (h : start + sizes.sum = xs.length) : ((intervals start sizes).flatMap fun interval =>
      (xs.drop interval.1).take (interval.2 - interval.1)) = xs.drop start := by
  induction sizes generalizing start with
  | nil =>
    rw [List.sum_nil, Nat.add_zero] at h
    exact (List.drop_eq_nil_of_le (Nat.le_of_eq h.symm)).symm
  | cons size sizes ih =>
    rw [List.sum_cons, ← Nat.add_assoc] at h
    rw [intervals, List.flatMap_cons, ih h, Nat.add_sub_cancel_left, ← List.drop_drop,
      List.take_append_drop]

namespace Column

/-- A column is put together from columns of the same storage type. -/
structure Joins (parts : List Column) (whole : Column) : Prop where
  storage : ∀ part ∈ parts, part.storage = whole.storage
  cells : parts.flatMap Column.cells = whole.cells

variable {start stop row : Nat} {sizes : List Nat}

theorem cell?_slice (c : Column) (h : row < stop - start) :
    (c.slice start stop).cell? row = c.cell? (start + row) := by
  cases c with
  | null size => rfl
  | boolean | integer | float32 | float64 | text | date32 | dictionary =>
    simp only [slice, cell?, getElem?_extract h]

theorem cells_slice (c : Column) :
    (c.slice start stop).cells = (c.cells.drop start).take (stop - start) := by
  unfold cells
  rw [take_drop_map_range, size_slice]
  refine List.map_congr_left fun row hrow => c.cell?_slice ?_
  have := List.mem_range.mp hrow
  omega

theorem joins_slices (c : Column) (h : sizes.sum = c.size) :
    Joins ((intervals 0 sizes).map fun interval => c.slice interval.1 interval.2) c := by
  constructor
  · intro part hpart
    obtain ⟨interval, -, rfl⟩ := List.mem_map.mp hpart
    exact c.storage_slice _ _
  · have hlength : 0 + sizes.sum = c.cells.length := by simp [cells, h]
    rw [List.flatMap_map, ← List.drop_zero (l := c.cells), ← flatMap_intervals hlength]
    exact List.flatMap_congr fun interval _ => c.cells_slice

end Column

namespace Evaluation

variable {e : Evaluation} {encoding : Encoding} {start stop : Nat} {sizes : List Nat}

theorem names_x_slice : ((e.slice start stop).x encoding).names = (e.x encoding).names := by
  simp [x, Matrix.ofColumns, slice]

theorem rowList_x_slice : ((e.slice start stop).x encoding).rowList =
    ((e.x encoding).rowList.drop start).take (stop - start) := by
  unfold x
  rw [Matrix.rowList_ofColumns, Matrix.rowList_ofColumns, take_drop_map_range]
  refine List.map_congr_left fun row hrow => ?_
  have hlt : row < stop - start := by
    have hmin : row < min stop e.rows - start := List.mem_range.mp hrow
    omega
  simp only [List.map_map, Function.comp_def, e.cell_slice hlt]
  rfl

/-- The results of evaluations, put together one after the other, are those of one evaluation. -/
structure JoinedFrom (e : Evaluation) (parts : List Evaluation) : Prop where

  rows : (parts.map Evaluation.rows).sum = e.rows

  names_x : ∀ encoding, ∀ part ∈ parts, (part.x encoding).names = (e.x encoding).names

  rowList_x : ∀ encoding,
    (parts.flatMap fun part => (part.x encoding).rowList) = (e.x encoding).rowList

  y_error : ∀ {error}, e.y = .error error → ∀ part ∈ parts, part.y = .error error

  y_ok : ∀ {column}, e.y = .ok column → ∃ columns,
    List.Forall₂ (fun part c => part.y = .ok c) parts columns ∧ Column.Joins columns column

  names_frame : ∀ part ∈ parts,
    part.frame.columns.map Prod.fst = e.frame.columns.map Prod.fst

  frame : ∀ {position : Nat} {name : String} {column : Column},
    e.frame.columns[position]? = some (name, column) → ∃ columns,
      List.Forall₂ (fun part c => part.frame.columns[position]? = some (name, c)) parts columns ∧
        Column.Joins columns column

def cut (e : Evaluation) (sizes : List Nat) : List Evaluation :=
  (intervals 0 sizes).map fun interval => e.slice interval.1 interval.2

theorem joinedFrom_cut (h : sizes.sum = e.rows) : e.JoinedFrom (e.cut sizes) := by
  constructor
  · rw [cut, List.map_map, ← h]
    apply sum_intervals
    omega
  · intro encoding part hpart
    obtain ⟨interval, -, rfl⟩ := List.mem_map.mp hpart
    exact names_x_slice
  · intro encoding
    have hlength : 0 + sizes.sum = (e.x encoding).rowList.length := by
      rw [x, Matrix.rowList_ofColumns, List.length_map, List.length_range, Nat.zero_add, h]
    rw [cut, List.flatMap_map, ← List.drop_zero (l := (e.x encoding).rowList),
      ← flatMap_intervals hlength]
    exact List.flatMap_congr fun interval _ => rowList_x_slice
  · intro error hy part hpart
    obtain ⟨interval, -, rfl⟩ := List.mem_map.mp hpart
    rw [y_slice, hy]
    rfl
  · intro column hy
    refine ⟨_, ?_, column.joins_slices (h.trans (e.size_of_y hy).symm)⟩
    rw [cut, List.forall₂_map_left_iff, List.forall₂_map_right_iff, List.forall₂_same]
    intro interval _
    rw [y_slice, hy]
    rfl
  · intro part hpart
    obtain ⟨interval, -, rfl⟩ := List.mem_map.mp hpart
    rw [columns_frame_slice, List.map_map]
    rfl
  · intro position name column hcolumn
    have hsize : column.size = e.rows := e.frame.size_eq _ (List.mem_of_getElem? hcolumn)
    refine ⟨_, ?_, column.joins_slices (h.trans hsize.symm)⟩
    rw [cut, List.forall₂_map_left_iff, List.forall₂_map_right_iff, List.forall₂_same]
    intro interval _
    rw [columns_frame_slice, List.getElem?_map, hcolumn]
    rfl

end Evaluation

namespace Model

variable {m : Model} {batch : Batch} {batches : List Batch} {e : Evaluation} {es : List Evaluation}
  {error : ModelError} {start : Nat} {sizes : List Nat}

theorem evaluate_eq_ok_iff : m.evaluate batch = .ok e ↔ m.bound.evaluate batch = .ok e :=
  mapError_eq_ok_iff

theorem evaluateFrom_eq_ok_iff : m.evaluateFrom start batches = .ok es ↔
    List.Forall₂ (fun batch e => m.evaluate batch = .ok e) batches es := by
  induction batches generalizing start es with
  | nil => simp [evaluateFrom, eq_comm]
  | cons batch batches ih =>
    rw [evaluateFrom, List.forall₂_cons_left_iff]
    simp only [evaluate_eq_ok_iff] at ih ⊢
    cases m.bound.evaluate batch with
    | error cause => simp
    | ok e =>
      simp only [map_eq_ok_iff, ih, Except.ok.injEq]
      constructor
      · rintro ⟨rest, hrest, rfl⟩
        exact ⟨e, rest, rfl, hrest, rfl⟩
      · rintro ⟨_, rest, rfl, hrest, rfl⟩
        exact ⟨rest, hrest, rfl⟩

structure FailsFirst (m : Model) (batches : List Batch) (position : Nat)
    (cause : EvaluationError) : Prop where
  fails : ∃ batch, batches[position]? = some batch ∧ m.evaluate batch = .error (.evaluation cause)
  before : ∀ i < position, ∀ batch ∈ batches[i]?, ∃ e, m.evaluate batch = .ok e

variable {cause first : EvaluationError} {position : Nat}

theorem evaluate_eq_error_iff :
    m.evaluate batch = .error (.evaluation cause) ↔ m.bound.evaluate batch = .error cause := by
  unfold evaluate
  cases m.bound.evaluate batch <;> simp [Except.mapError]

theorem failsFirst_cons_of_error (h : m.bound.evaluate batch = .error first) :
    m.FailsFirst (batch :: batches) position cause ↔ position = 0 ∧ cause = first := by
  constructor
  · rintro ⟨⟨failing, hfailing, hcause⟩, hbefore⟩
    obtain rfl : position = 0 := by
      by_contra hne
      obtain ⟨e, he⟩ := hbefore 0 (by omega) batch rfl
      rw [evaluate_eq_ok_iff, h] at he
      cases he
    cases hfailing
    rw [evaluate_eq_error_iff, h] at hcause
    cases hcause
    exact ⟨rfl, rfl⟩
  · rintro ⟨rfl, rfl⟩
    exact ⟨⟨batch, rfl, evaluate_eq_error_iff.mpr h⟩, fun i hi => absurd hi (Nat.not_lt_zero i)⟩

theorem failsFirst_cons_of_ok (h : m.bound.evaluate batch = .ok e) :
    m.FailsFirst (batch :: batches) position cause ↔
      ∃ rest, m.FailsFirst batches rest cause ∧ position = rest + 1 := by
  constructor
  · rintro ⟨⟨failing, hfailing, hcause⟩, hbefore⟩
    cases position with
    | zero =>
      cases hfailing
      rw [evaluate_eq_error_iff, h] at hcause
      cases hcause
    | succ rest =>
      exact ⟨rest, ⟨⟨failing, hfailing, hcause⟩,
        fun i hi => hbefore (i + 1) (Nat.succ_lt_succ hi)⟩, rfl⟩
  · rintro ⟨rest, ⟨hfails, hbefore⟩, rfl⟩
    refine ⟨hfails, fun i hi => ?_⟩
    cases i with
    | zero =>
      rintro _ ⟨⟩
      exact ⟨e, evaluate_eq_ok_iff.mpr h⟩
    | succ i => exact hbefore i (Nat.lt_of_succ_lt_succ hi)

theorem evaluateFrom_eq_error_iff : m.evaluateFrom start batches = .error error ↔
    ∃ position cause, m.FailsFirst batches position cause ∧
      error = .partition (start + position) cause := by
  induction batches generalizing start with
  | nil =>
    simp only [evaluateFrom, reduceCtorEq, false_iff, not_exists, not_and]
    rintro position cause ⟨⟨_, ⟨⟩, _⟩, _⟩
  | cons batch batches ih =>
    rw [evaluateFrom]
    cases h : m.bound.evaluate batch with
    | error first =>
      simp only [failsFirst_cons_of_error h]
      constructor
      · rintro ⟨⟩
        exact ⟨0, first, ⟨rfl, rfl⟩, rfl⟩
      · rintro ⟨_, _, ⟨rfl, rfl⟩, rfl⟩
        rfl
    | ok e =>
      simp only [failsFirst_cons_of_ok h, map_eq_error_iff, ih]
      constructor
      · rintro ⟨rest, cause, hfirst, rfl⟩
        exact ⟨rest + 1, cause, ⟨rest, hfirst, rfl⟩, by rw [Nat.add_right_comm, Nat.add_assoc]⟩
      · rintro ⟨_, cause, ⟨rest, hfirst, rfl⟩, rfl⟩
        exact ⟨rest, cause, hfirst, by rw [Nat.add_right_comm, Nat.add_assoc]⟩

theorem evaluate_cut (h : m.evaluate batch = .ok e) :
    m.evaluatePartitions (batch.cut sizes) = .ok (e.cut sizes) := by
  refine evaluateFrom_eq_ok_iff.mpr ?_
  rw [Batch.cut, Evaluation.cut, List.forall₂_map_left_iff, List.forall₂_map_right_iff,
    List.forall₂_same]
  intro interval _
  exact evaluate_eq_ok_iff.mpr (BoundFormula.evaluate_slice (evaluate_eq_ok_iff.mp h))

theorem exists_evaluate_of_slice {stop : Nat} (h : m.evaluate (batch.slice start stop) = .ok e) :
    ∃ whole, m.evaluate batch = .ok whole := by
  rw [evaluate_eq_ok_iff] at h
  simp only [evaluate_eq_ok_iff]
  cases hbatch : m.bound.evaluate batch with
  | ok whole => exact ⟨whole, rfl⟩
  | error cause =>
    rw [BoundFormula.evaluate_slice_error hbatch] at h
    cases h

/-- How the evaluation of partitions follows from the evaluation of single batches, and that of
the slices of one batch from the evaluation of the whole. -/
structure PartitionsAgree (m : Model) : Prop where
  ok_iff : ∀ batches es, m.evaluatePartitions batches = .ok es ↔
    List.Forall₂ (fun batch e => m.evaluate batch = .ok e) batches es
  error_iff : ∀ batches error, m.evaluatePartitions batches = .error error ↔
    ∃ position cause, m.FailsFirst batches position cause ∧ error = .partition position cause
  succeeds_iff : ∀ (batch : Batch) (sizes : List Nat), sizes ≠ [] → sizes.sum = batch.rows →
    ((∃ es, m.evaluatePartitions (batch.cut sizes) = .ok es) ↔ ∃ e, m.evaluate batch = .ok e)
  joined : ∀ (batch : Batch) (sizes : List Nat), sizes.sum = batch.rows → ∀ e es,
    m.evaluate batch = .ok e → m.evaluatePartitions (batch.cut sizes) = .ok es → e.JoinedFrom es

/-- Evaluation in partitions agrees with evaluation as a whole, for every bound formula. -/
theorem partitionsAgree (m : Model) : m.PartitionsAgree := by
  constructor
  · intro batches es
    exact evaluateFrom_eq_ok_iff
  · intro batches error
    rw [evaluatePartitions, evaluateFrom_eq_error_iff]
    simp only [Nat.zero_add]
  · intro batch sizes hsizes hsum
    constructor
    · rintro ⟨es, hes⟩
      have hall := evaluateFrom_eq_ok_iff.mp hes
      cases sizes with
      | nil => exact absurd rfl hsizes
      | cons size sizes =>
        cases hall with
        | cons hfirst _ => exact exists_evaluate_of_slice hfirst
    · rintro ⟨e, he⟩
      exact ⟨e.cut sizes, evaluate_cut he⟩
  · intro batch sizes hsum e es he hes
    rw [evaluate_cut he] at hes
    cases hes
    obtain ⟨-, hrows, -⟩ := BoundFormula.evaluate_eq_ok_iff.mp (evaluate_eq_ok_iff.mp he)
    exact Evaluation.joinedFrom_cut (hsum.trans hrows.symm)

/-- Three rows of `y ~ g`, cut after the first, and once more there. -/
theorem partitionsAgree_three_rows : ∃ (f : Formula) (s : Schema) (batch : Batch) (m : Model)
    (e : Evaluation) (es : List Evaluation),
      f.responseTerm? = some (.variable "y") ∧ f.predictors = [.variable "g"] ∧
      batch.columns = [
        ("g", .dictionary .i8 #[some 0, none, some 1] (.text .short #[some "v", some "w"])),
        ("y", .float32 #[some 2, none, some 5])] ∧
      ofFormula f s = .ok m ∧ m.evaluate batch = .ok e ∧
      m.evaluatePartitions (batch.cut [1, 0, 2]) = .ok es ∧
      es.map Evaluation.rows = [1, 0, 2] ∧ e.JoinedFrom es := by
  have hlevels : ∀ field ∈ [Field.mk "y" .f32, ⟨"g", .categorical ["u", "v"]⟩],
      field.type.LevelsOk := by
    simp [DataType.LevelsOk, DataType.levels?]
  refine ⟨⟨some ⟨.variable "y", false⟩, [.variable "g"], by decide⟩, ⟨_, by decide, hlevels⟩,
    ⟨3, _, ?size⟩, ?m, ?e, ?es, rfl, rfl, rfl, ?bind, ?evaluate, ?partitions, ?rows,
    (partitionsAgree _).joined _ [1, 0, 2] rfl _ _ ?evaluate ?partitions⟩
  case size => decide
  case bind => rfl
  case evaluate => rfl
  case partitions => rfl
  case rows => rfl

end Model

end ModelFormula
