import ModelFormula.Proofs.Decoding

/-! # Slices

A slice of a batch holds consecutive rows of it. It is evaluated to what the evaluation of the whole
batch has in these rows, for every result: no cell depends on more than its own row.
-/

namespace ModelFormula

variable {start stop row : Nat}

theorem extract_map_range {α : Type} (f : Nat → α) (start stop rows : Nat) :
    ((Array.range rows).map f).extract start stop =
      (Array.range (min stop rows - start)).map fun row => f (start + row) := by
  ext row <;> simp

theorem take_drop_map_range {α : Type} (f : Nat → α) (start stop rows : Nat) :
    (((List.range rows).map f).drop start).take (stop - start) =
      (List.range (min stop rows - start)).map fun row => f (start + row) := by
  refine List.ext_getElem (by simp; omega) fun row _ _ => by simp

namespace Column

theorem getElem?_extract {α : Type} {cells : Array α} (h : row < stop - start) :
    (cells.extract start stop)[row]? = cells[start + row]? := by
  rw [Array.getElem?_extract]
  split
  · rfl
  · exact (Array.getElem?_eq_none (by omega)).symm

theorem number_slice (c : Column) (h : row < stop - start) :
    (c.slice start stop).number row = c.number (start + row) := by
  cases c <;> simp only [slice, number, getElem?_extract h]

theorem label?_slice (c : Column) (h : row < stop - start) :
    (c.slice start stop).label? row = c.label? (start + row) := by
  cases c with
  | text layout cells => simp only [slice, label?, getElem?_extract h]
  | dictionary key keys values =>
    cases values <;> simp only [slice, label?, getElem?_extract h]
  | boolean | integer | float32 | float64 | date32 | null => rfl

end Column

theorem Batch.column?_slice (batch : Batch) (name : String) :
    (batch.slice start stop).column? name =
      (batch.column? name).map (Column.slice start stop) := by
  change (batch.columns.map fun column => (column.1, column.2.slice start stop)).lookup name =
    (batch.columns.lookup name).map (Column.slice start stop)
  induction batch.columns with
  | nil => rfl
  | cons column columns ih =>
    obtain ⟨first, cells⟩ := column
    rw [List.map_cons, List.lookup_cons, List.lookup_cons, ih]
    cases name == first <;> rfl

namespace Source

def slice (start stop : Nat) : Source → Source
  | numeric column => numeric (column.slice start stop)
  | factor codes => factor (codes.extract start stop)

@[simp] theorem size_slice (source : Source) :
    (source.slice start stop).size = min stop source.size - start := by
  cases source <;> simp [slice, size]

theorem codes_slice (levels : List String) (column : Column) :
    codes levels (column.slice start stop) = (codes levels column).extract start stop := by
  unfold codes
  rw [extract_map_range, Column.size_slice]
  refine Array.map_congr_left fun row hrow => ?_
  have hlt : row < stop - start := by
    have := Array.mem_range.mp hrow
    omega
  rw [Column.label?_slice column hlt]

theorem ofColumn_slice (type : DataType) (column : Column) :
    ofColumn type (column.slice start stop) = (ofColumn type column).slice start stop := by
  unfold ofColumn
  split
  · rw [codes_slice, slice]
  · rfl

theorem decode_slice (batch : Batch) (field : Field) :
    decode (batch.slice start stop) field = (decode batch field).map (slice start stop) := by
  unfold decode
  rw [Batch.column?_slice]
  cases batch.column? field.name with
  | none => rfl
  | some column =>
    simp only [Option.map_some, Column.storage_slice, ofColumn_slice]
    split <;> rfl

theorem decodeAll_slice (batch : Batch) (used : List Nat) (first : Nat) (fields : List Field) :
    decodeAll (batch.slice start stop) used first fields =
      (decodeAll batch used first fields).map (List.map (Option.map (slice start stop))) := by
  induction fields generalizing first with
  | nil => rfl
  | cons field fields ih =>
    simp only [decodeAll, decode_slice, ih]
    by_cases hused : first ∈ used
    · simp only [if_pos hused]
      cases decode batch field with
      | error e => rfl
      | ok source => cases decodeAll batch used (first + 1) fields <;> rfl
    · simp only [if_neg hused]
      cases decodeAll batch used (first + 1) fields <;> rfl

end Source

namespace Evaluation

/-- What the evaluation has in the rows from `start` up to `stop`. -/
def slice (e : Evaluation) (start stop : Nat) : Evaluation where
  bound := e.bound
  rows := min stop e.rows - start
  sources := e.sources.map (Option.map (Source.slice start stop))
  size_eq := by
    intro source h
    obtain ⟨decoded, hd, heq⟩ := List.mem_map.mp h
    obtain ⟨whole, rfl, rfl⟩ := Option.map_eq_some_iff.mp heq
    rw [Source.size_slice, e.size_eq whole hd]

variable (e : Evaluation)

theorem source?_slice (index : Nat) :
    (e.slice start stop).source? index = (e.source? index).map (Source.slice start stop) := by
  unfold source? slice
  rw [List.getElem?_map]
  cases e.sources[index]? <;> rfl

/-! ## Cells -/

section Row

variable (h : row < stop - start)

include h

theorem number_slice : (e.slice start stop).number row = e.number (start + row) := by
  funext index
  unfold number
  rw [source?_slice]
  cases e.source? index with
  | none => rfl
  | some source =>
    cases source with
    | numeric column => exact column.number_slice h
    | factor codes => rfl

theorem code?_slice : (e.slice start stop).code? row = e.code? (start + row) := by
  funext index
  unfold code?
  rw [source?_slice]
  cases e.source? index with
  | none => rfl
  | some source =>
    cases source with
    | numeric column => rfl
    | factor codes => exact congrArg Option.join (Column.getElem?_extract h)

theorem operandValues_slice (operands : List Operand) (codes : List Nat) :
    (e.slice start stop).operandValues row operands codes =
      e.operandValues (start + row) operands codes := by
  induction operands generalizing codes with
  | nil => rfl
  | cons operand operands ih =>
    cases operand with
    | numeric expr => simp only [operandValues, value, e.number_slice h, ih]
    | factor column levels => simp only [operandValues, indicatorOf, e.code?_slice h, ih]

theorem cell_slice (column : DesignColumn) :
    (e.slice start stop).cell column row = e.cell column (start + row) := by
  cases column with
  | intercept => rfl
  | numeric expr => simp only [cell, value, e.number_slice h]
  | code index => simp only [cell, e.code?_slice h]
  | indicator index level => simp only [cell, indicatorOf, e.code?_slice h]
  | interaction operands codes => simp only [cell, e.operandValues_slice h]

end Row

/-! ## Results -/

variable {e}

theorem lt_of_mem_range_slice (h : row ∈ Array.range (e.slice start stop).rows) :
    row < stop - start := by
  have hrow : row < min stop e.rows - start := Array.mem_range.mp h
  omega

theorem computed_slice (column : DesignColumn) :
    (e.slice start stop).computed column = (e.computed column).slice start stop := by
  unfold computed
  rw [Column.slice, extract_map_range]
  refine congrArg Column.float64 (Array.map_congr_left fun row hrow => ?_)
  rw [e.cell_slice (lt_of_mem_range_slice hrow)]

theorem codes_slice (index : Nat) :
    (e.slice start stop).codes index = (e.codes index).extract start stop := by
  unfold codes
  rw [extract_map_range]
  refine Array.map_congr_left fun row hrow => ?_
  rw [e.code?_slice (lt_of_mem_range_slice hrow)]

theorem passed_slice (index : Nat) :
    (e.slice start stop).passed index = (e.passed index).slice start stop := by
  unfold passed
  rw [source?_slice, computed_slice]
  cases e.source? index with
  | none => rfl
  | some source => cases source <;> rfl

theorem y_slice : (e.slice start stop).y = e.y.map (Column.slice start stop) := by
  unfold y
  rw [show (e.slice start stop).bound = e.bound from rfl]
  cases e.bound.response with
  | none => rfl
  | some plan =>
    simp only [passed_slice, computed_slice, codes_slice]
    cases plan.kind with
    | numeric expr => cases expr <;> rfl
    | categorical index levels => simp [Except.map, Column.slice]
    | factorInteraction operands => rfl

theorem outputColumns_slice (plan : TermPlan) :
    (e.slice start stop).outputColumns plan =
      (e.outputColumns plan).map (Column.slice start stop) := by
  unfold outputColumns
  simp only [passed_slice, computed_slice, codes_slice]
  cases plan.kind with
  | numeric expr => cases expr <;> rfl
  | categorical index levels => rfl
  | factorInteraction operands => rw [List.map_map]; rfl

theorem columns_frame_slice : (e.slice start stop).frame.columns =
    e.frame.columns.map fun column => (column.1, column.2.slice start stop) := by
  unfold frame
  rw [List.map_flatMap]
  refine List.flatMap_congr fun plan _ => ?_
  rw [outputColumns_slice, List.zip_map_right]
  rfl

end Evaluation

namespace BoundFormula

variable {b : BoundFormula} {batch : Batch} {e : Evaluation} {error : EvaluationError}

theorem evaluate_eq_error_iff : b.evaluate batch = .error error ↔
    Source.decodeAll batch b.usedColumns 0 b.input.fields = .error error := by
  unfold evaluate
  split
  · next h => simp [h]
  · next h => simp [h]

/-- A slice is evaluated to the slice of the evaluation. -/
theorem evaluate_slice (h : b.evaluate batch = .ok e) :
    b.evaluate (batch.slice start stop) = .ok (e.slice start stop) := by
  obtain ⟨hbound, hrows, hsources⟩ := evaluate_eq_ok_iff.mp h
  refine evaluate_eq_ok_iff.mpr ⟨hbound, congrArg (min stop · - start) hrows, ?_⟩
  rw [Source.decodeAll_slice, hsources]
  rfl

theorem evaluate_slice_error (h : b.evaluate batch = .error error) :
    b.evaluate (batch.slice start stop) = .error error := by
  rw [evaluate_eq_error_iff] at h ⊢
  rw [Source.decodeAll_slice, h]
  rfl

end BoundFormula

end ModelFormula
