import ModelFormula.Proofs.Decoding
import ModelFormula.Proofs.MatrixAccess

/-! # Design matrices

The cell of a matrix in a row and a column is the cell of the column in this row, although the
matrix is stored row after row. The columns of one predictor lie between those of the predictors
before it and those of the predictors after it.
-/

namespace ModelFormula

namespace Matrix

variable {rows row column : Nat} {columns columns' : List (String × (Nat → Float))}

theorem getElem?_flatMap_map {α β : Type} {rows row column : Nat} {columns : List α}
    {cell : Nat → α → β} (hr : row < rows) (hc : column < columns.length) :
    ((List.range rows).flatMap fun row => columns.map (cell row))[row * columns.length + column]? =
      (columns.map (cell row))[column]? := by
  induction rows with
  | zero => exact absurd hr (Nat.not_lt_zero _)
  | succ rows ih =>
    have hlength := length_flatMap_map (List.range rows) columns cell
    rw [List.length_range] at hlength
    rw [List.range_succ, List.flatMap_append, List.flatMap_singleton]
    rcases Nat.lt_or_eq_of_le (Nat.le_of_lt_succ hr) with h | rfl
    · -- The row is one of the first: its cells end before those of the last row begin.
      have hbefore : row * columns.length + column < rows * columns.length := calc
        row * columns.length + column < row * columns.length + columns.length :=
          Nat.add_lt_add_left hc _
        _ = (row + 1) * columns.length := (Nat.succ_mul _ _).symm
        _ ≤ rows * columns.length := Nat.mul_le_mul_right _ h
      rw [List.getElem?_append_left (hlength ▸ hbefore)]
      exact ih h
    · rw [List.getElem?_append_right (by omega), hlength, Nat.add_sub_cancel_left]

theorem get?_ofColumns (hr : row < rows) :
    (ofColumns rows columns).get? row column = columns[column]?.map fun c => c.2 row := by
  by_cases hc : column < columns.length
  · have hcell : ((List.range rows).flatMap fun row => columns.map fun c => c.2 row)[
        row * columns.length + column]? = (columns.map fun c => c.2 row)[column]? :=
      getElem?_flatMap_map hr hc
    simpa [get?, ofColumns, width, hr, hc] using hcell
  · simp [get?, ofColumns, width, hc]

theorem row?_ofColumns (hr : row < rows) :
    (ofColumns rows columns).row? row = some (columns.map fun c => c.2 row) := by
  have hrow : row < (ofColumns rows columns).rows := hr
  obtain ⟨cells, hcells⟩ := Option.isSome_iff_exists.mp (isSome_row?_iff.mpr hrow)
  rw [hcells]
  congr 1
  apply List.ext_getElem?
  intro column
  rw [getElem?_of_row? hcells, get?_ofColumns hr, List.getElem?_map]

theorem rowList_ofColumns : (ofColumns rows columns).rowList =
    (List.range rows).map fun row => columns.map fun c => c.2 row := by
  rw [rowList, ← List.filterMap_eq_map]
  refine List.filterMap_congr fun row hrow => ?_
  exact row?_ofColumns (List.mem_range.mp hrow)

/-- Columns that have the same names and the same cells in all rows of a matrix. -/
def Agree (rows : Nat) : List (String × (Nat → Float)) → List (String × (Nat → Float)) → Prop :=
  List.Forall₂ fun c c' => c.1 = c'.1 ∧ ∀ row < rows, c.2 row = c'.2 row

theorem Agree.refl (columns : List (String × (Nat → Float))) : Agree rows columns columns :=
  List.forall₂_same.mpr fun _ _ => ⟨rfl, fun _ _ => rfl⟩

theorem Agree.map_fst (h : Agree rows columns columns') :
    columns.map (·.1) = columns'.map (·.1) := by
  induction h with
  | nil => rfl
  | cons hc _ ih => rw [List.map_cons, List.map_cons, hc.1, ih]

theorem Agree.map_cell (h : Agree rows columns columns') (hr : row < rows) :
    columns.map (fun c => c.2 row) = columns'.map fun c => c.2 row := by
  induction h with
  | nil => rfl
  | cons hc _ ih => rw [List.map_cons, List.map_cons, hc.2 row hr, ih]

/-- A matrix has no more of its columns than their names and their cells in its rows. -/
theorem ofColumns_congr (h : Agree rows columns columns') :
    ofColumns rows columns = ofColumns rows columns' := by
  have hdata : ((List.range rows).flatMap fun row => columns.map fun c => c.2 row) =
      (List.range rows).flatMap fun row => columns'.map fun c => c.2 row :=
    List.flatMap_congr fun row hrow => h.map_cell (List.mem_range.mp hrow)
  unfold ofColumns
  simp only [h.map_fst, hdata]

end Matrix

namespace BoundFormula

variable {b : BoundFormula} {before after : List TermPlan} {p : TermPlan}

/-- The bound formula with only the predictors that come before a certain one. -/
def upTo (b : BoundFormula) (before : List TermPlan) : BoundFormula :=
  { b with predictors := before }

theorem mem_designColumns {encoding : Encoding} {c : String × DesignColumn}
    (hc : c ∈ b.designColumns encoding) : c = (DesignColumn.interceptName, .intercept) ∨
      ∃ p ∈ b.predictors, c ∈ DesignColumn.ofPlan encoding p := by
  rcases List.mem_append.mp hc with hc | hc
  · cases hi : b.hasIntercept with
    | false => simp [hi] at hc
    | true => exact .inl (by simpa [hi] using hc)
  · exact .inr (List.mem_flatMap.mp hc)

/-- A predictor has its columns between those of the predictors around it. -/
theorem designColumns_eq (encoding : Encoding) (h : b.predictors = before ++ p :: after) :
    b.designColumns encoding = (b.upTo before).designColumns encoding ++
      (DesignColumn.ofPlan encoding p ++ after.flatMap (DesignColumn.ofPlan encoding)) := by
  rw [designColumns, h, List.flatMap_append, List.flatMap_cons, ← List.append_assoc]
  rfl

/-- The columns of a predictor stand after those of all predictors before it. -/
theorem getElem?_designColumns {encoding : Encoding} {j : Nat} {c : String × DesignColumn}
    (h : b.predictors = before ++ p :: after) (hc : (DesignColumn.ofPlan encoding p)[j]? = some c) :
    (b.designColumns encoding)[((b.upTo before).designColumns encoding).length + j]? = some c := by
  have hlt : j < (DesignColumn.ofPlan encoding p).length := (List.getElem?_eq_some_iff.mp hc).1
  rw [designColumns_eq encoding h, List.getElem?_append_right (Nat.le_add_right _ _),
    Nat.add_sub_cancel_left, List.getElem?_append_left hlt, hc]

end BoundFormula

end ModelFormula
