import ModelFormula.Proofs.Binary64
import ModelFormula.Proofs.Combinations
import ModelFormula.Proofs.FrameColumns
import ModelFormula.Proofs.TermValue

/-! # The cells of an interaction with categories

A cell is one running product over the operands, where a category counts as one if it has the level
of the column and as zero if not. The column of the levels that a row has holds the product of its
numbers. In any other column the product meets a zero, and from there on it is a zero only if all
that comes before and after is finite.
-/

namespace ModelFormula

namespace Operand

def expr? : Operand → Option Expr
  | numeric x => some x
  | factor _ _ => none

def factor? : Operand → Option (Nat × List String)
  | numeric _ => none
  | factor column levels => some (column, levels)

end Operand

namespace BoundFormula

def label? (b : BoundFormula) (batch : Batch) (row index : Nat) : Option String :=
  b.input.fields[index]?.bind fun field => (batch.column? field.name).bind (Column.label? row)

/-- In a row of a batch, all categories among the operands have the levels with these codes. -/
def HasLevels (b : BoundFormula) (batch : Batch) (row : Nat) (operands : List Operand)
    (codes : List Nat) : Prop :=
  List.Forall₂ (fun factor code => ∃ label, b.label? batch row factor.1 = some label ∧
    factor.2[code]? = some label) (operands.filterMap Operand.factor?) codes

end BoundFormula

namespace Evaluation

open Binary64

def numbers (e : Evaluation) (row : Nat) (operands : List Operand) : List Float :=
  (operands.filterMap Operand.expr?).map (e.value row)

def codesAt (e : Evaluation) (row : Nat) (operands : List Operand) : List (Option Nat) :=
  (operands.filterMap Operand.factor?).map fun factor => e.code? row factor.1

/-- The numbers before the first category that has another code in a row than in a combination. -/
def numbersBefore (e : Evaluation) (row : Nat) : List Operand → List Nat → List Float
  | [], _ => []
  | .numeric x :: operands, codes => e.value row x :: numbersBefore e row operands codes
  | .factor column _ :: operands, codes =>
    if e.code? row column = codes.head? then numbersBefore e row operands codes.tail else []

/-- The numbers after the first category that has another code in a row than in a combination. -/
def numbersAfter (e : Evaluation) (row : Nat) : List Operand → List Nat → List Float
  | [], _ => []
  | .numeric _ :: operands, codes => numbersAfter e row operands codes
  | .factor column _ :: operands, codes =>
    if e.code? row column = codes.head? then numbersAfter e row operands codes.tail
    else e.numbers row operands

variable {e : Evaluation} {row : Nat} {operands : List Operand} {codes combination : List Nat}
  {start : Float}

theorem numbers_numeric (x : Expr) :
    e.numbers row (.numeric x :: operands) = e.value row x :: e.numbers row operands := rfl

theorem numbers_factor (column : Nat) (levels : List String) :
    e.numbers row (.factor column levels :: operands) = e.numbers row operands := rfl

theorem codesAt_factor (column : Nat) (levels : List String) :
    e.codesAt row (.factor column levels :: operands) =
      e.code? row column :: e.codesAt row operands := rfl

theorem indicatorOf_of_code {index code level : Nat} (h : e.code? row index = some code) :
    e.indicatorOf row index (some level) = indicator (code == level) := by
  simp only [indicatorOf, h]

theorem foldl_operandValues_own (h : e.codesAt row operands = codes.map some) :
    (e.operandValues row operands codes).foldl (· * ·) start =
      (e.numbers row operands).foldl (· * ·) start := by
  induction operands generalizing codes start with
  | nil => rfl
  | cons operand operands ih =>
    cases operand with
    | numeric x => exact ih h
    | factor column levels =>
      rw [codesAt_factor] at h
      cases codes with
      | nil => cases h
      | cons code codes =>
        rw [List.map_cons, List.cons.injEq] at h
        have hone : e.indicatorOf row column (some code) = 1 := by
          rw [indicatorOf_of_code h.1, beq_self_eq_true]
          rfl
        change (e.operandValues row operands codes).foldl (· * ·)
          (start * e.indicatorOf row column (some code)) = _
        rw [hone, Binary64.mul_one, ih h.2, numbers_factor]

theorem forall_operandValues_isFinite_iff (h : e.codesAt row operands = codes.map some)
    (hlength : combination.length = codes.length) :
    (∀ y ∈ e.operandValues row operands combination, y.isFinite = true) ↔
      ∀ x ∈ e.numbers row operands, x.isFinite = true := by
  induction operands generalizing codes combination with
  | nil => rfl
  | cons operand operands ih =>
    cases operand with
    | numeric x =>
      rw [operandValues, numbers_numeric, List.forall_mem_cons, List.forall_mem_cons, ih h hlength]
    | factor column levels =>
      rw [codesAt_factor] at h
      cases codes with
      | nil => cases h
      | cons code codes =>
        cases combination with
        | nil => cases hlength
        | cons level combination =>
          rw [List.map_cons, List.cons.injEq] at h
          have hfinite : (e.indicatorOf row column (some level)).isFinite = true := by
            rw [indicatorOf_of_code h.1]
            cases code == level <;> rfl
          rw [operandValues, numbers_factor, List.forall_mem_cons]
          exact (and_iff_right hfinite).trans (ih h.2 (Nat.succ.inj hlength))

/-- The product meets a zero where the column and the row differ first. -/
theorem zeroIf_foldl_operandValues (h : e.codesAt row operands = codes.map some)
    (hlength : combination.length = codes.length) (hne : combination ≠ codes) :
    ZeroIf (((e.numbersBefore row operands combination).foldl (· * ·) start).isFinite = true ∧
        ∀ x ∈ e.numbersAfter row operands combination, x.isFinite = true)
      ((e.operandValues row operands combination).foldl (· * ·) start) := by
  induction operands generalizing codes combination start with
  | nil =>
    cases codes with
    | nil => exact absurd (List.eq_nil_of_length_eq_zero hlength) hne
    | cons => cases h
  | cons operand operands ih =>
    cases operand with
    | numeric x => exact ih h hlength hne
    | factor column levels =>
      rw [codesAt_factor] at h
      cases codes with
      | nil => cases h
      | cons code codes =>
        cases combination with
        | nil => cases hlength
        | cons level combination =>
          rw [List.map_cons, List.cons.injEq] at h
          rw [numbersBefore, numbersAfter, operandValues, List.foldl_cons, List.head?_cons,
            List.tail_cons, indicatorOf_of_code h.1, h.1]
          by_cases hlevel : code = level
          · -- The row has this level, so the first difference comes later.
            subst hlevel
            rw [if_pos rfl, if_pos rfl, beq_self_eq_true, show indicator true = 1 from rfl,
              Binary64.mul_one]
            exact ih h.2 (Nat.succ.inj hlength) fun heq => hne (heq ▸ rfl)
          · have hcodes : ¬ some code = some level := fun heq => hlevel (Option.some.inj heq)
            rw [if_neg hcodes, if_neg hcodes, beq_false_of_ne hlevel,
              show indicator false = 0 from rfl,
              ← forall_operandValues_isFinite_iff h.2 (Nat.succ.inj hlength)]
            exact zeroIf_foldl_mul_zero

/-- The cells of an interaction in a row whose categories have the levels with these codes, where
the columns of the interaction begin at `first`. -/
structure InteractionRow (e : Evaluation) (encoding : Encoding) (first row : Nat)
    (operands : List Operand) (codes : List Nat) : Prop where

  codes_mem : codes ∈ Operand.combinations operands

  own : ∀ {j : Nat}, (Operand.combinations operands)[j]? = some codes →
    (e.x encoding).get? row (first + j) = some (productOf (e.numbers row operands))

  other : ∀ {j : Nat} {combination : List Nat},
    (Operand.combinations operands)[j]? = some combination → combination ≠ codes →
      ∃ value, (e.x encoding).get? row (first + j) = some value ∧
        ZeroIf ((productOf (e.numbersBefore row operands combination)).isFinite = true ∧
          ∀ x ∈ e.numbersAfter row operands combination, x.isFinite = true) value

variable {f : Formula} {s : Schema} {b : BoundFormula} {batch : Batch} {p : TermPlan}
  {before after : List TermPlan}

theorem exists_column_of_interaction (encoding : Encoding) {t : Term} {j : Nat}
    (hp : Term.Planned s t p) (hk : p.kind = .factorInteraction operands)
    (hj : (Operand.combinations operands)[j]? = some combination) :
    ∃ name, (DesignColumn.ofPlan encoding p)[j]? =
      some (name, .interaction operands combination) := by
  obtain ⟨terms, -, houtputs⟩ := hp.operands_of_interaction hk
  have hcolumns : DesignColumn.ofPlan encoding p = (Operand.combinations operands).map fun codes =>
      (outputName terms operands codes, .interaction operands codes) := by
    simp [DesignColumn.ofPlan, hk, houtputs, List.zip_map', Term.computed]
  exact ⟨outputName terms operands combination, by rw [hcolumns, List.getElem?_map, hj]; rfl⟩

theorem mem_usedColumns_of_interaction (hp : p ∈ b.readers)
    (hk : p.kind = .factorInteraction operands) {factor : Nat × List String}
    (h : factor ∈ operands.filterMap Operand.factor?) : factor.1 ∈ b.usedColumns := by
  refine BoundFormula.mem_usedColumns.mpr ⟨p, hp, ?_⟩
  obtain ⟨operand, hoperand, hfactor⟩ := List.mem_filterMap.mp h
  rw [hk]
  refine List.mem_flatMap.mpr ⟨operand, hoperand, ?_⟩
  cases operand with
  | numeric => cases hfactor
  | factor column levels =>
    cases hfactor
    exact List.mem_singleton_self _

theorem code?_of_label {i code : Nat} {field : Field} {levels : List String} {label : String}
    (he : b.evaluate batch = .ok e) (hi : i ∈ b.usedColumns) (hrow : row < batch.rows)
    (hget : b.input.fields[i]? = some field) (hlevels : field.type.levels? = some levels)
    (hlabel : b.label? batch row i = some label) (hlevel : levels[code]? = some label) :
    e.code? row i = some code := by
  obtain ⟨column, hcolumn, -, hsource⟩ := BoundFormula.source?_of_evaluate he hi hget
  rw [Source.ofColumn_of_levels? column hlevels] at hsource
  rw [BoundFormula.label?, hget, Option.bind_some, hcolumn, Option.bind_some] at hlabel
  have hnodup := (b.input.levelsOk field (List.mem_of_getElem? hget) levels hlevels).2
  have hsize : row < column.size := Batch.size_of_column? hcolumn ▸ hrow
  exact (code?_eq_some_iff hsource hsize hnodup).mpr ⟨label, hlabel, hlevel⟩

theorem codesAt_of_hasLevels {terms : List Term} (he : b.evaluate batch = .ok e)
    (hoperands : List.Forall₂ (Term.PlannedOperand b.input) terms operands)
    (hused : ∀ factor ∈ operands.filterMap Operand.factor?, factor.1 ∈ b.usedColumns)
    (hrow : row < batch.rows) (h : b.HasLevels batch row operands codes) :
    e.codesAt row operands = codes.map some ∧
      List.Forall₂ (· < ·) codes (operands.filterMap Operand.levelCount?) := by
  induction hoperands generalizing codes with
  | nil =>
    cases h
    exact ⟨rfl, .nil⟩
  | @cons term operand terms operands hoperand _ ih =>
    cases hoperand with
    | number => exact ih hused h
    | @factor i field levels hget hlevels =>
      obtain ⟨code, codes, ⟨label, hlabel, hlevel⟩, hrest, rfl⟩ := List.forall₂_cons_left_iff.mp h
      have husedAll : ∀ factor ∈ (i, levels) :: operands.filterMap Operand.factor?,
          factor.1 ∈ b.usedColumns := hused
      rw [List.forall_mem_cons] at husedAll
      obtain ⟨hcodes, hbelow⟩ := ih husedAll.2 hrest
      have hcode := code?_of_label he husedAll.1 hrow hget hlevels hlabel hlevel
      constructor
      · rw [codesAt_factor, hcode, hcodes, List.map_cons]
      · exact .cons (List.getElem?_eq_some_iff.mp hlevel).1 hbelow

/-- Where all its categories have declared labels, an interaction holds the product of its numbers
in the column of these labels, and in the others a zero or NaN. -/
theorem evaluate_interactionRow (hb : f.bind s = .ok b) (he : b.evaluate batch = .ok e)
    (encoding : Encoding) (h : b.predictors = before ++ p :: after)
    (hk : p.kind = .factorInteraction operands) (hrow : row < batch.rows)
    (hlevels : b.HasLevels batch row operands codes) :
    e.InteractionRow encoding ((b.upTo before).designColumns encoding).length row operands
      codes := by
  have hp : p ∈ b.readers := List.mem_append_right _ (by simp [h])
  have hplanned := b.planned_of_mem_readers hb hp
  rw [← b.input_of_bind hb] at hplanned
  obtain ⟨terms, hoperands, -⟩ := hplanned.operands_of_interaction hk
  obtain ⟨hcodes, hbelow⟩ := codesAt_of_hasLevels he hoperands
    (fun _ => mem_usedColumns_of_interaction hp hk) hrow hlevels
  obtain ⟨rfl, hrows, -⟩ := BoundFormula.evaluate_eq_ok_iff.mp he
  constructor
  · exact mem_levelCombinations.mpr hbelow
  · intro j hj
    obtain ⟨name, hcolumn⟩ := exists_column_of_interaction encoding hplanned hk hj
    rw [get?_x_predictor (hrows ▸ hrow) h hcolumn]
    exact congrArg some (foldl_operandValues_own hcodes)
  · intro j combination hj hne
    obtain ⟨name, hcolumn⟩ := exists_column_of_interaction encoding hplanned hk hj
    have hlength : combination.length = codes.length := by
      have hcombination := mem_levelCombinations.mp (List.mem_of_getElem? hj)
      exact hcombination.length_eq.trans hbelow.length_eq.symm
    exact ⟨_, get?_x_predictor (hrows ▸ hrow) h hcolumn,
      zeroIf_foldl_operandValues hcodes hlength hne⟩

/-- The row `x = 2`, `g = v` of `~ x::g`. -/
theorem evaluate_interactionRow_two : ∃ (f : Formula) (s : Schema) (batch : Batch)
    (b : BoundFormula) (e : Evaluation) (p : TermPlan) (operands : List Operand),
      f.predictors = [.interaction [.variable "x", .variable "g"]] ∧
      batch.columns = [("x", .float64 #[some 2]), ("g", .text .short #[some "v"])] ∧
      f.bind s = .ok b ∧ b.evaluate batch = .ok e ∧ b.predictors = [p] ∧
      p.kind = .factorInteraction operands ∧ b.HasLevels batch 0 operands [1] ∧
      e.InteractionRow .dummy ((b.upTo []).designColumns .dummy).length 0 operands [1] := by
  refine ⟨⟨none, [.interaction [.variable "x", .variable "g"]], by decide⟩,
    ⟨[⟨"x", .f64⟩, ⟨"g", .categorical ["u", "v"]⟩], by decide, ?levels⟩, ⟨1, _, ?size⟩, ?b, ?e, ?p,
    ?operands, rfl, rfl, ?bind, ?evaluate, ?predictors, ?kind, ?row,
    evaluate_interactionRow ?bind ?evaluate .dummy ?predictors ?kind Nat.one_pos ?row⟩
  case levels => simp [DataType.LevelsOk, DataType.levels?]
  case size => decide
  case bind => rfl
  case evaluate => rfl
  case predictors => rfl
  case kind => rfl
  case row => exact .cons ⟨"v", rfl, rfl⟩ .nil

/-- The row `x = ∞`, `g = u` of `~ x::g`: the cell for the other level is NaN. -/
theorem not_isZero_of_infinite : ∃ (f : Formula) (s : Schema) (batch : Batch) (b : BoundFormula)
    (e : Evaluation) (value : Float),
      f.predictors = [.interaction [.variable "x", .variable "g"]] ∧
      s.fields = [⟨"x", .f64⟩, ⟨"g", .categorical ["u", "v"]⟩] ∧
      batch.columns = [("x", .float64 #[some (1 / 0)]), ("g", .text .short #[some "u"])] ∧
      f.bind s = .ok b ∧ b.evaluate batch = .ok e ∧ (1 / 0 : Float).isNaN = false ∧
      (e.x .dummy).names = ["x::g_u", "x::g_v"] ∧ (e.x .dummy).get? 0 0 = some (1 / 0) ∧
      (e.x .dummy).get? 0 1 = some value ∧ ¬ IsZero value := by
  refine ⟨⟨none, [.interaction [.variable "x", .variable "g"]], by decide⟩,
    ⟨_, by decide, ?levels⟩, ⟨1, _, ?size⟩, ?b, ?e, missing, rfl, rfl, rfl, ?bind, ?evaluate, rfl,
    ?names, ?own, ?other, ?zero⟩
  case levels => simp [DataType.LevelsOk, DataType.levels?]
  case size => decide
  case bind => rfl
  case evaluate => rfl
  case names => rfl
  case own => decide +kernel
  case other => decide +kernel
  case zero => exact fun h => absurd h.isNaN (by decide)

end Evaluation

end ModelFormula
