import ModelFormula.Proofs.CombinationCells
import ModelFormula.Proofs.DesignNames
import ModelFormula.Proofs.Missing

/-! # Encodings of the same data

The design matrices of one evaluation differ only in the columns of categories that stand alone. The
indicators of all levels have a single one in every row, or are all missing; leaving out the first
of them gives the dummies, and the position of the one is the code.
-/

namespace ModelFormula

/-! ## The columns of a matrix -/

namespace Matrix

def cellsAt (m : Matrix) (j : Nat) : List Float :=
  (List.range m.rows).filterMap fun row => m.get? row j

def columns (m : Matrix) : List (String × List Float) :=
  m.names.zipIdx.map fun (name, j) => (name, m.cellsAt j)

variable {rows j : Nat} {columns : List (String × (Nat → Float))}

theorem cellsAt_ofColumns {column : String × (Nat → Float)} (h : columns[j]? = some column) :
    (ofColumns rows columns).cellsAt j = (List.range rows).map column.2 := by
  rw [cellsAt, ← List.filterMap_eq_map]
  refine List.filterMap_congr fun row hrow => ?_
  have hlt : row < rows := List.mem_range.mp hrow
  rw [get?_ofColumns hlt, h]
  rfl

theorem columns_ofColumns :
    (ofColumns rows columns).columns = columns.map fun c => (c.1, (List.range rows).map c.2) := by
  refine List.ext_getElem? fun j => ?_
  rw [Matrix.columns, List.getElem?_map, List.getElem?_zipIdx, Option.map_map, List.getElem?_map]
  change (columns.map (·.1))[j]?.map _ = _
  rw [List.getElem?_map, Option.map_map]
  cases h : columns[j]? with
  | none => rfl
  | some column => simp [cellsAt_ofColumns h]

end Matrix

/-! ## One row of indicators -/

def OnlyOneAt (cells : List Float) (i : Nat) : Prop :=
  cells[i]? = some 1 ∧ ∀ j cell, cells[j]? = some cell → j ≠ i → cell = 0

/-- The indicators of a category in a row, beside the cell that holds its code. As numbers, codes
are told apart up to 53 binary digits, and they are stored in 32. -/
structure Tells (indicators : List Float) (cell : Float) : Prop where

  one_or_missing : (∃ i, OnlyOneAt indicators i) ∨ ∀ x ∈ indicators, x.isNaN = true

  eq_code : ∀ i, OnlyOneAt indicators i → cell = Float.ofNat i

  onlyOneAt : indicators.length ≤ 2 ^ 53 →
    ∀ i < indicators.length, cell = Float.ofNat i → OnlyOneAt indicators i

  isNaN_iff : cell.isNaN = true ↔ ∀ x ∈ indicators, x.isNaN = true

section Rows

variable {levels code i : Nat}

theorem indicator_eq_one_iff {hit : Bool} : indicator hit = 1 ↔ hit = true := by
  cases hit with
  | false => simpa [indicator] using show (0 : Float) ≠ 1 by decide
  | true => simp [indicator]

theorem onlyOneAt_indicators_iff (h : code < levels) :
    OnlyOneAt ((List.range levels).map fun level => indicator (code == level)) i ↔ code = i := by
  constructor
  · rintro ⟨hone, -⟩
    rw [List.getElem?_map] at hone
    obtain ⟨level, hlevel, hone⟩ := Option.map_eq_some_iff.mp hone
    obtain ⟨hi, rfl⟩ := List.getElem?_eq_some_iff.mp hlevel
    rw [List.getElem_range, indicator_eq_one_iff, beq_iff_eq] at hone
    exact hone
  · rintro rfl
    constructor
    · simp [h, indicator]
    · intro j cell hcell hne
      rw [List.getElem?_map] at hcell
      obtain ⟨level, hlevel, rfl⟩ := Option.map_eq_some_iff.mp hcell
      obtain ⟨hj, rfl⟩ := List.getElem?_eq_some_iff.mp hlevel
      rw [List.getElem_range]
      simp [indicator, hne.symm]

theorem tells_of_code (h : code < levels) :
    Tells ((List.range levels).map fun level => indicator (code == level)) (Float.ofNat code) := by
  have hone : OnlyOneAt ((List.range levels).map fun level => indicator (code == level)) code :=
    (onlyOneAt_indicators_iff h).mpr rfl
  constructor
  · exact .inl ⟨code, hone⟩
  · intro i hi
    rw [(onlyOneAt_indicators_iff h).mp hi]
  · intro hlevels i hi
    rw [List.length_map, List.length_range] at hlevels hi
    rw [onlyOneAt_indicators_iff h,
      Binary64.ofNat_inj (Nat.lt_of_lt_of_le h hlevels) (Nat.lt_of_lt_of_le hi hlevels)]
    exact id
  · rw [Binary64.isNaN_ofNat]
    constructor
    · intro hnan
      cases hnan
    · intro hall
      exact absurd (hall 1 (List.mem_of_getElem? hone.1)) (by decide)

theorem tells_of_missing (levels : Nat) : Tells (List.replicate levels missing) missing := by
  have hall : ∀ x ∈ List.replicate levels missing, x.isNaN = true := by
    intro x hx
    rw [(List.mem_replicate.mp hx).2]
    exact Binary64.isNaN_missing
  constructor
  · exact .inr hall
  · rintro i ⟨hone, -⟩
    exact absurd (hall 1 (List.mem_of_getElem? hone)) (by decide)
  · intro _ i _ hcode
    have hnan := Binary64.isNaN_missing
    rw [hcode, Binary64.isNaN_ofNat] at hnan
    cases hnan
  · exact ⟨fun _ => hall, fun _ => Binary64.isNaN_missing⟩

end Rows

/-! ## The columns of a plan -/

/-- The columns of a category that stands alone: one indicator for every level, all but the first of
them, or the code that they tell. -/
structure ShownThreeWays (rows : Nat) (name : String) (levels : List String)
    (columns : Encoding → List (String × List Float)) : Prop where

  levels_ne : levels ≠ []

  names : (columns .oneHot).map Prod.fst = levels.map fun level => name ++ "_" ++ level

  dummy : columns .dummy = (columns .oneHot).tail

  ordinal : ∃ cells, columns .ordinal = [(name, cells)] ∧ cells.length = rows ∧
    ∀ row < rows, ∃ indicators cell, (columns .oneHot).map (·.2[row]?) = indicators.map some ∧
      cells[row]? = some cell ∧ Tells indicators cell

/-- The design matrices under all encodings, where every predictor brings its columns. Only those of
a category that stands alone depend on the encoding. -/
structure EncodingsAgree (b : BoundFormula) (rows : Nat) (x : Encoding → Matrix)
    (columns : Encoding → TermPlan → List (String × List Float)) : Prop where

  height : ∀ encoding, (x encoding).rows = rows

  layout : ∀ encoding, (x encoding).columns =
    (if b.hasIntercept then [(DesignColumn.interceptName, List.replicate rows 1)] else []) ++
      b.predictors.flatMap (columns encoding)

  category : ∀ {p : TermPlan} {i : Nat} {levels : List String}, p ∈ b.predictors →
    p.kind = .categorical i levels → ∃ name, p.term = .variable name ∧
      ShownThreeWays rows name levels fun encoding => columns encoding p

  other : ∀ {p : TermPlan}, p ∈ b.predictors → (∀ i levels, p.kind ≠ .categorical i levels) →
    ∀ encoding encoding', columns encoding p = columns encoding' p

theorem DesignColumn.ofPlan_congr {p : TermPlan} (h : ∀ i levels, p.kind ≠ .categorical i levels)
    (encoding encoding' : Encoding) : ofPlan encoding p = ofPlan encoding' p := by
  unfold ofPlan
  cases hk : p.kind with
  | numeric | factorInteraction => rfl
  | categorical i levels => exact absurd hk (h i levels)

theorem DesignColumn.ofCategory_oneHot (name : String) (i : Nat) (levels : List String) :
    ofCategory .oneHot name i levels =
      levels.zipIdx.map fun (level, position) => (name ++ "_" ++ level, .indicator i position) := by
  rw [ofCategory, Encoding.width, Nat.sub_self, List.drop_zero]

theorem DesignColumn.ofCategory_dummy (name : String) (i : Nat) {levels : List String}
    (h : levels ≠ []) :
    ofCategory .dummy name i levels = (ofCategory .oneHot name i levels).tail := by
  have hone : levels.length - (levels.length - 1) = 1 :=
    Nat.sub_sub_self (List.length_pos_iff.mpr h)
  rw [ofCategory_oneHot, ofCategory, Encoding.width, hone, List.drop_one, List.map_tail]

theorem Term.Planned.term_of_category {s : Schema} {t : Term} {p : TermPlan} {i : Nat}
    {levels : List String} {field : Field} (h : Term.Planned s t p)
    (hk : p.kind = .categorical i levels) (ho : p.outputs = [field]) :
    t = .variable field.name := by
  cases h with
  | number | function => cases hk
  | category =>
    cases ho
    rfl
  | interaction =>
    unfold interactionPlan at hk
    split at hk <;> cases hk

namespace Evaluation

variable {f : Formula} {s : Schema} {b : BoundFormula} {batch : Batch} {e : Evaluation}
  {p : TermPlan} {i row : Nat} {levels : List String}

def columnsOf (e : Evaluation) (encoding : Encoding) (p : TermPlan) :
    List (String × List Float) :=
  (DesignColumn.ofPlan encoding p).map fun c => (c.1, (List.range e.rows).map (e.cell c.2))

theorem columns_x (e : Evaluation) (encoding : Encoding) : (e.x encoding).columns =
    (if e.bound.hasIntercept then [(DesignColumn.interceptName, List.replicate e.rows 1)]
      else []) ++ e.bound.predictors.flatMap (e.columnsOf encoding) := by
  have hones : (List.range e.rows).map (e.cell .intercept) = List.replicate e.rows 1 := by
    have hone : e.cell .intercept = fun _ => 1 := rfl
    rw [hone, List.map_const', List.length_range]
  rw [x, Matrix.columns_ofColumns, List.map_map, BoundFormula.designColumns, List.map_append,
    List.map_flatMap]
  refine congrArg₂ _ ?_ rfl
  cases e.bound.hasIntercept with
  | false => rfl
  | true => exact congrArg (fun cells => [(DesignColumn.interceptName, cells)]) hones

theorem lt_of_code? {code : Nat} {column : Column}
    (h : e.source? i = some (.factor (Source.codes levels column)))
    (hcode : e.code? row i = some code) : code < levels.length := by
  rw [code?, h] at hcode
  obtain ⟨hlt, hkey⟩ := Array.getElem?_eq_some_iff.mp (Option.join_eq_some_iff.mp hcode)
  exact Source.lt_of_mem_codes (hkey ▸ Array.getElem_mem hlt)

/-- The indicators of the levels of a category tell its code. -/
theorem tells_cell {count : Nat} (h : ∀ code, e.code? row i = some code → code < count) :
    Tells ((List.range count).map fun level => e.cell (.indicator i level) row)
      (e.cell (.code i) row) := by
  cases hcode : e.code? row i with
  | none =>
    have hindicators : ((List.range count).map fun level => e.cell (.indicator i level) row) =
        List.replicate count missing := by
      simp only [cell, indicatorOf_of_absent hcode, List.map_const', List.length_range]
    have hcell : e.cell (.code i) row = missing := by rw [cell, hcode]; rfl
    rw [hindicators, hcell]
    exact tells_of_missing count
  | some code =>
    have hcell : e.cell (.code i) row = Float.ofNat code := by rw [cell, hcode]; rfl
    simp only [hcell]
    simp only [cell, indicatorOf_of_code hcode]
    exact tells_of_code (h code hcode)

theorem shownThreeWays_columnsOf (hb : f.bind s = .ok b) (he : b.evaluate batch = .ok e)
    (hp : p ∈ b.readers) (hk : p.kind = .categorical i levels) : ∃ name, p.term = .variable name ∧
      ShownThreeWays e.rows name levels fun encoding => e.columnsOf encoding p := by
  obtain ⟨field, hi, hf, hlevels, houtputs⟩ :=
    BoundFormula.exists_category_of_mem_readers hb hp hk
  have hne : levels ≠ [] := (b.input.levelsOk field (List.mem_of_getElem? hf) levels hlevels).1
  have hcolumns (encoding : Encoding) : e.columnsOf encoding p =
      (DesignColumn.ofCategory encoding field.name i levels).map fun c =>
        (c.1, (List.range e.rows).map (e.cell c.2)) := by
    simp [columnsOf, DesignColumn.ofPlan, hk, houtputs]
  obtain ⟨column, -, -, hsource⟩ := BoundFormula.source?_of_evaluate he hi hf
  rw [Source.ofColumn_of_levels? column hlevels] at hsource
  refine ⟨field.name, (b.planned_of_mem_readers hb hp).term_of_category hk houtputs, hne, ?names,
    ?dummy, _, hcolumns .ordinal, ?length, ?row⟩
  case names =>
    rw [hcolumns, List.map_map]
    exact Term.names_ofCategory i (by decide) hne
  case dummy =>
    rw [hcolumns, hcolumns, DesignColumn.ofCategory_dummy _ _ hne, List.map_tail]
  case length => rw [List.length_map, List.length_range]
  case row =>
    intro row hrow
    have hcodes : ∀ code, e.code? row i = some code → code < levels.length :=
      fun _ hcode => lt_of_code? hsource hcode
    refine ⟨_, _, ?_, ?_, tells_cell hcodes⟩
    · have hpositions : levels.zipIdx.map Prod.snd = List.range levels.length := by
        rw [List.zipIdx_map_snd, List.range_eq_range']
      rw [hcolumns, DesignColumn.ofCategory_oneHot, ← hpositions]
      simp only [List.map_map]
      refine List.map_congr_left fun level _ => ?_
      simp [hrow]
    · simp [hrow]

/-- The design matrices of one evaluation show the same data under all encodings. -/
theorem evaluate_encodingsAgree (hb : f.bind s = .ok b) (he : b.evaluate batch = .ok e) :
    ∃ columns, EncodingsAgree b batch.rows e.x columns := by
  obtain ⟨rfl, hrows, -⟩ := BoundFormula.evaluate_eq_ok_iff.mp he
  refine ⟨e.columnsOf, ?_⟩
  rw [← hrows]
  constructor
  · intro encoding
    rfl
  · exact e.columns_x
  · intro p i levels hp hk
    exact shownThreeWays_columnsOf hb he (List.mem_append_right _ hp) hk
  · intro p hp hk encoding encoding'
    rw [columnsOf, columnsOf, DesignColumn.ofPlan_congr hk]

/-- The matrices of `~ 1 + g + x::g + h` on a declared label, one that is not declared and a missing
one, where `h` has a single level and so no dummies. -/
theorem evaluate_encodingsAgree_one_level : ∃ (f : Formula) (s : Schema) (batch : Batch)
    (b : BoundFormula) (e : Evaluation),
      f.predictors = [.intercept, .variable "g", .interaction [.variable "x", .variable "g"],
        .variable "h"] ∧
      s.fields = [⟨"x", .f64⟩, ⟨"g", .categorical ["u", "v"]⟩, ⟨"h", .categorical ["p"]⟩] ∧
      batch.columns = [("g", .text .short #[some "v", some "w", none]),
        ("h", .text .short #[some "p", some "p", some "p"]),
        ("x", .float64 #[some 2, some 3, some 5])] ∧
      f.bind s = .ok b ∧ b.evaluate batch = .ok e ∧
      (e.x .oneHot).names = ["Intercept", "g_u", "g_v", "x::g_u", "x::g_v", "h_p"] ∧
      (e.x .dummy).names = ["Intercept", "g_v", "x::g_u", "x::g_v"] ∧
      (e.x .ordinal).names = ["Intercept", "g", "x::g_u", "x::g_v", "h"] ∧
      (e.x .ordinal).get? 0 1 = some 1 ∧ ∃ columns, EncodingsAgree b batch.rows e.x columns := by
  refine ⟨⟨none, _, ?distinct⟩, ⟨_, ?names, ?levels⟩, ⟨3, _, ?size⟩, ?b, ?e, rfl, rfl, rfl, ?bind,
    ?evaluate, ?oneHot, ?dummy, ?ordinal, ?code, evaluate_encodingsAgree ?bind ?evaluate⟩
  case distinct => decide
  case names => decide
  case levels => simp [DataType.LevelsOk, DataType.levels?]
  case size => decide
  case bind => rfl
  case evaluate => rfl
  case oneHot => rfl
  case dummy => rfl
  case ordinal => rfl
  case code => decide +kernel

end Evaluation

end ModelFormula
