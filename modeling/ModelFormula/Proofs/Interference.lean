import ModelFormula.Proofs.Cells
import ModelFormula.Proofs.Compatibility
import ModelFormula.Proofs.Description
import ModelFormula.Proofs.DesignNames
import ModelFormula.Proofs.Missing
import ModelFormula.Proofs.Relocation

/-! # Columns that do not interfere

What a plan brings into the results depends on the content of its own source columns alone. Two
batches that hold the same values and missing cells in these columns, however they are stored, lead
to the same sources; and two evaluations with the same sources for a plan have the same columns for
it, at the same positions, whatever the other columns of the batches are.
-/

namespace ModelFormula

/-! ## Content and sources -/

namespace Column

variable {c c' : Column} {row : Nat}

theorem size_eq_of_cells (h : c.cells = c'.cells) : c.size = c'.size := by
  simpa [cells] using congrArg List.length h

theorem eq_of_map_cells {α : Type} {g : α → CellValue} (hg : Function.Injective g)
    {xs ys : Array (Option α)}
    (h : (List.range xs.size).map (fun row => xs[row]?.join.map g) =
      (List.range ys.size).map fun row => ys[row]?.join.map g) : xs = ys := by
  have hsize : xs.size = ys.size := by simpa using congrArg List.length h
  refine Array.ext hsize fun row hx hy => Option.map_injective hg ?_
  have hcell := congrArg (·[row]?) h
  simpa [hx, hy] using hcell

theorem eq_of_cells (hplain : ∀ key value, c.storage ≠ .dictionary key value)
    (hstorage : c.storage = c'.storage) (h : c.cells = c'.cells) : c = c' := by
  cases c with
  | boolean xs =>
    cases c' <;> cases hstorage
    exact congrArg _ (eq_of_map_cells (fun _ _ => CellValue.boolean.inj) h)
  | integer kind xs =>
    cases c' <;> cases hstorage
    exact congrArg _ (eq_of_map_cells (fun _ _ => CellValue.integer.inj) h)
  | float32 xs =>
    cases c' <;> cases hstorage
    exact congrArg _ (eq_of_map_cells (fun _ _ => CellValue.float32.inj) h)
  | float64 xs =>
    cases c' <;> cases hstorage
    exact congrArg _ (eq_of_map_cells (fun _ _ => CellValue.float64.inj) h)
  | text layout xs =>
    cases c' <;> cases hstorage
    exact congrArg _ (eq_of_map_cells (fun _ _ => CellValue.text.inj) h)
  | date32 xs =>
    cases c' <;> cases hstorage
    exact congrArg _ (eq_of_map_cells (fun _ _ => CellValue.date.inj) h)
  | null size =>
    cases c' <;> cases hstorage
    exact congrArg _ (size_eq_of_cells h)
  | dictionary key keys values => exact absurd rfl (hplain _ _)

theorem cell?_of_cells (h : c.cells = c'.cells) (hrow : row < c.size) :
    c.cell? row = c'.cell? row := by
  have hrow' : row < c'.size := size_eq_of_cells h ▸ hrow
  have hcell := congrArg (·[row]?) h
  simpa [cells, hrow, hrow'] using hcell

end Column

def CellValue.text? : CellValue → Option String
  | text value => some value
  | _ => none

theorem Column.label?_eq_bind {c : Column} {levels : List String}
    (h : (DataType.categorical levels).StoredAs c.storage) (row : Nat) :
    c.label? row = (c.cell? row).bind CellValue.text? := by
  cases c with
  | text layout cells =>
    rw [label?, cell?]
    cases cells[row]?.join <;> rfl
  | dictionary key keys values =>
    cases values with
    | text layout labels =>
      rw [label?, cell?, Option.bind_assoc]
      refine congrArg _ (funext fun key => ?_)
      rw [cell?]
      cases labels[key]?.join <;> rfl
    | boolean | integer | float32 | float64 | date32 | null | dictionary => cases h
  | boolean | integer | float32 | float64 | date32 | null => cases h

namespace Source

variable {type : DataType} {c c' : Column}

theorem ofColumn_congr (h : type.StoredAs c.storage) (h' : type.StoredAs c'.storage)
    (hcells : c.cells = c'.cells) : ofColumn type c = ofColumn type c' := by
  cases hlevels : type.levels? with
  | none =>
    rw [ofColumn_of_number c hlevels, ofColumn_of_number c' hlevels]
    -- A number is passed on as it is stored, so the columns have to be the same altogether.
    refine congrArg numeric (Column.eq_of_cells ?_ ?_ hcells)
    · rw [h.eq_storage hlevels]
      exact type.storage_ne_dictionary hlevels
    · rw [h.eq_storage hlevels, h'.eq_storage hlevels]
  | some levels =>
    obtain rfl := DataType.eq_categorical_of_levels? hlevels
    have hsize := Column.size_eq_of_cells hcells
    rw [ofColumn_of_levels? c hlevels, ofColumn_of_levels? c' hlevels, codes, codes, ← hsize]
    refine congrArg factor (Array.map_congr_left fun row hrow => ?_)
    rw [Column.label?_eq_bind h, Column.label?_eq_bind h',
      Column.cell?_of_cells hcells (Array.mem_range.mp hrow)]

end Source

/-! ## Plans and sources -/

namespace Evaluation

variable {e e' : Evaluation} {p : TermPlan} {row : Nat}

/-- Two evaluations have the same sources at these positions. -/
def Agree (e e' : Evaluation) (positions : List Nat) : Prop :=
  ∀ i ∈ positions, e.source? i = e'.source? i

/-- A cell depends on the sources that its column reads. -/
theorem cell_congr {c : DesignColumn} (h : e.Agree e' c.columns) :
    e.cell c row = e'.cell c row := by
  have hmoved : e.cell c row = e'.cell (c.move id) row := cell_move h
  rwa [DesignColumn.move_id] at hmoved

theorem outputColumns_congr (hrows : e.rows = e'.rows) (h : e.Agree e' p.kind.columns) :
    e.outputColumns p = e'.outputColumns p := by
  have hmoved : e.outputColumns p = e'.outputColumns (p.move id) := outputColumns_move hrows h
  rwa [TermPlan.move_id] at hmoved

theorem y_congr {f : Formula} {s : Schema} (hb : f.bind s = .ok e.bound)
    (hb' : f.bind s = .ok e'.bound) (hr : e.bound.response = some p)
    (hr' : e'.bound.response = some p) (hcolumns : e.outputColumns p = e'.outputColumns p) :
    e.y = e'.y := by
  obtain ⟨field, column, houtputs, hcolumn, hy⟩ := exists_response_column hb hr
  obtain ⟨field', column', houtputs', hcolumn', hy'⟩ := exists_response_column hb' hr'
  obtain rfl : field = field' := List.singleton_inj.mp (houtputs.symm.trans houtputs')
  obtain rfl : column = column' := by
    rw [hcolumn, hcolumn'] at hcolumns
    exact List.singleton_inj.mp hcolumns
  rw [hy, hy']

end Evaluation

/-! ## Two batches -/

structure Matrix.HasColumn (m : Matrix) (position : Nat) (name : String) (cells : List Float) :
    Prop where

  name : m.names[position]? = some name

  cells : m.IsColumn position cells

/-- The column of this name has the same values and missing cells in two batches, or is in
neither. -/
def Batch.SameAt (batch batch' : Batch) (name : String) : Prop :=
  (batch.column? name).map Column.cells = (batch'.column? name).map Column.cells

def BoundFormula.SameSources (b : BoundFormula) (batch batch' : Batch) (p : TermPlan) : Prop :=
  ∀ i ∈ p.sources, ∀ field, b.input.fields[i]? = some field → batch.SameAt batch' field.name

namespace Evaluation

variable {f : Formula} {s : Schema} {b : BoundFormula} {batch batch' : Batch} {e e' : Evaluation}
  {p : TermPlan} {encoding : Encoding} {before after : List TermPlan}

theorem source?_congr {i : Nat} {field : Field} (he : b.evaluate batch = .ok e)
    (he' : b.evaluate batch' = .ok e') (hi : i ∈ b.usedColumns)
    (hf : b.input.fields[i]? = some field) (hsame : batch.SameAt batch' field.name) :
    e.source? i = e'.source? i := by
  obtain ⟨column, hcolumn, hfits, hsource⟩ := b.source?_of_evaluate he hi hf
  obtain ⟨column', hcolumn', hfits', hsource'⟩ := b.source?_of_evaluate he' hi hf
  have hcells : column.cells = column'.cells := by
    simpa [Batch.SameAt, hcolumn, hcolumn'] using hsame
  rw [hsource, hsource', Source.ofColumn_congr (DataType.accepts_iff.mp hfits)
    (DataType.accepts_iff.mp hfits') hcells]

theorem agree_of_sameSources (hb : f.bind s = .ok b) (he : b.evaluate batch = .ok e)
    (he' : b.evaluate batch' = .ok e') (hp : p ∈ b.readers)
    (hsame : b.SameSources batch batch' p) : e.Agree e' p.kind.columns := by
  intro i hi
  have hused : i ∈ b.usedColumns := BoundFormula.mem_usedColumns.mpr ⟨p, hp, hi⟩
  have hlt : i < b.input.fields.length := by
    rw [b.input_of_bind hb]
    exact b.lt_of_mem_usedColumns hb hused
  have hf := List.getElem?_eq_getElem hlt
  exact source?_congr he he' hused hf (hsame i (mem_ascending.mpr hi) _ hf)

theorem hasColumn_x {j : Nat} {c : String × DesignColumn}
    (h : e.bound.predictors = before ++ p :: after)
    (hc : (DesignColumn.ofPlan encoding p)[j]? = some c) :
    (e.x encoding).HasColumn (((e.bound.upTo before).designColumns encoding).length + j) c.1
      ((List.range e.rows).map (e.cell c.2)) := by
  have hdesign := BoundFormula.getElem?_designColumns h hc
  constructor
  · rw [names_x, List.getElem?_map, hdesign, Option.map_some]
  · constructor
    · rw [List.length_map, List.length_range]
      rfl
    · intro row (hrow : row < e.rows)
      rw [List.getElem?_map, List.getElem?_range hrow, get?_x encoding hrow, hdesign]
      rfl

theorem exists_column_of_output {j : Nat} {field : Field}
    (hm : ∀ q ∈ e.bound.plans, e.Materializes q) (h : e.bound.plans = before ++ p :: after)
    (hf : p.outputs[j]? = some field) : ∃ column, (e.outputColumns p)[j]? = some column ∧
      e.frame.columns[(before.flatMap TermPlan.outputs).length + j]? =
        some (field.name, column) := by
  have hp : p ∈ e.bound.plans := by simp [h]
  have hlt : j < (e.slots p).length :=
    (hm p hp).length_slots ▸ (List.getElem?_eq_some_iff.mp hf).1
  obtain ⟨slot, hslot⟩ : ∃ slot, (e.slots p)[j]? = some slot := ⟨_, List.getElem?_eq_getElem hlt⟩
  have hbefore : ∀ q ∈ before, e.Materializes q := fun q hq =>
    hm q (h ▸ List.mem_append_left _ hq)
  obtain ⟨hfield, hcolumn⟩ := List.getElem?_zip_eq_some.mp hslot
  obtain rfl : field = slot.1 := Option.some.inj (hf.symm.trans hfield)
  refine ⟨slot.2, hcolumn, ?_⟩
  rw [columns_frame, List.getElem?_map, frameSlots, h, getElem?_flatMap_slots hbefore hlt, hslot]
  rfl

/-- What a plan brings into the results is the same in two evaluations: its columns of the design
matrix and of the frame have the same names, stand at the same positions and hold the same, and so
does the response if the plan is that of the response. -/
structure SameFor (b : BoundFormula) (p : TermPlan) (e e' : Evaluation) : Prop where

  design : ∀ encoding before after, b.predictors = before ++ p :: after →
    ∀ j c, (DesignColumn.ofPlan encoding p)[j]? = some c → ∃ cells,
      (e.x encoding).HasColumn (((b.upTo before).designColumns encoding).length + j) c.1 cells ∧
      (e'.x encoding).HasColumn (((b.upTo before).designColumns encoding).length + j) c.1 cells

  listed : p ∈ b.plans

  frame : ∀ before after, b.plans = before ++ p :: after → ∀ j field, p.outputs[j]? = some field →
    ∃ column,
      e.frame.columns[(before.flatMap TermPlan.outputs).length + j]? = some (field.name, column) ∧
      e'.frame.columns[(before.flatMap TermPlan.outputs).length + j]? = some (field.name, column)

  response : b.response = some p → ∃ column, e.y = .ok column ∧ e'.y = .ok column

/-- The results of a plan depend on the content of its source columns alone. -/
theorem evaluate_sameFor (hb : f.bind s = .ok b) (he : b.evaluate batch = .ok e)
    (he' : b.evaluate batch' = .ok e') (hrows : batch.rows = batch'.rows) (hp : p ∈ b.readers)
    (hsame : b.SameSources batch batch' p) : SameFor b p e e' := by
  have hagree := agree_of_sameSources hb he he' hp hsame
  have hm : ∀ q ∈ b.plans, e.Materializes q := fun q hq =>
    .of_evaluate hb he (b.mem_readers_of_mem_plans hq)
  have hm' : ∀ q ∈ b.plans, e'.Materializes q := fun q hq =>
    .of_evaluate hb he' (b.mem_readers_of_mem_plans hq)
  obtain ⟨rfl, hr, -⟩ := BoundFormula.evaluate_eq_ok_iff.mp he
  obtain ⟨hbound, hr', -⟩ := BoundFormula.evaluate_eq_ok_iff.mp he'
  have hrows : e.rows = e'.rows := by rw [hr, hr', hrows]
  have hb' : f.bind s = .ok e'.bound := hbound ▸ hb
  have hcolumns := outputColumns_congr hrows hagree
  refine ⟨?design, BoundFormula.mem_plans_of_mem_readers hb hp, ?frame, ?response⟩
  case design =>
    intro encoding before after h j c hc
    -- The name and the place come from the bound formula alone; only the cells are at stake.
    have hreads := DesignColumn.columns_of_mem_ofPlan (List.mem_of_getElem? hc)
    have hcells : (List.range e.rows).map (e.cell c.2) =
        (List.range e'.rows).map (e'.cell c.2) := by
      rw [← hrows]
      exact List.map_congr_left fun row _ => cell_congr (hreads ▸ hagree)
    have h' : e'.bound.predictors = before ++ p :: after := hbound ▸ h
    have hcolumn' := hasColumn_x h' hc
    rw [← hcells, hbound] at hcolumn'
    exact ⟨_, hasColumn_x h hc, hcolumn'⟩
  case frame =>
    intro before after h j field hf
    obtain ⟨column, hcolumn, hplace⟩ := exists_column_of_output hm h hf
    obtain ⟨column', hcolumn', hplace'⟩ := exists_column_of_output (hbound ▸ hm') (hbound ▸ h) hf
    obtain rfl : column = column' := by
      rw [hcolumns, hcolumn'] at hcolumn
      exact (Option.some.inj hcolumn).symm
    exact ⟨column, hplace, hplace'⟩
  case response =>
    intro hresponse
    obtain ⟨field, column, -, -, hy⟩ := exists_response_column hb hresponse
    have hy' := y_congr hb hb' hresponse (hbound ▸ hresponse) hcolumns
    exact ⟨_, hy, hy' ▸ hy⟩

/-- The interaction of `y ~ y - y + y + a::g` in two batches that share only the content of `a` and
`g`: the labels are stored in two ways, a number of `y` is another and one is missing in another
row, and the second batch has its columns in another order and more of them. -/
theorem evaluate_sameFor_interaction : ∃ (f : Formula) (s : Schema) (batch batch' : Batch)
    (b : BoundFormula) (e e' : Evaluation) (p : TermPlan),
      f.response = some ⟨.variable "y", true⟩ ∧
      f.predictors = [.variable "y", .interaction [.variable "a", .variable "g"]] ∧
      s.fields = [⟨"y", .f64⟩, ⟨"a", .i32⟩, ⟨"g", .categorical ["u", "v"]⟩] ∧
      batch.columns = [("y", .float64 #[some 1, none]), ("a", .integer .i32 #[none, some 2]),
        ("g", .dictionary .i8 #[some 0, some 1] (.text .short #[some "w", some "u"]))] ∧
      batch'.columns = [("z", .date32 #[none, none]), ("g", .text .long #[some "w", some "u"]),
        ("a", .integer .i32 #[none, some 2]), ("y", .float64 #[none, some 7])] ∧
      p.term = .interaction [.variable "a", .variable "g"] ∧
      f.bind s = .ok b ∧ b.evaluate batch = .ok e ∧ b.evaluate batch' = .ok e' ∧
      batch.rows = batch'.rows ∧ p ∈ b.readers ∧ b.SameSources batch batch' p ∧
      SameFor b p e e' := by
  refine ⟨⟨some ⟨.variable "y", true⟩, _, ?distinct⟩, ⟨_, ?names, ?levels⟩, ⟨2, _, ?size⟩,
    ⟨2, _, ?size'⟩, ?b, ?e, ?e', Term.interactionPlan [.variable "a", .variable "g"]
      [.numeric (.column 1), .factor 2 ["u", "v"]], rfl, rfl, rfl, rfl, rfl, rfl, ?bind, ?evaluate,
    ?evaluate', rfl, ?reads, ?same, evaluate_sameFor ?bind ?evaluate ?evaluate' rfl ?reads ?same⟩
  case distinct => decide
  case names => decide
  case levels => simp [DataType.LevelsOk, DataType.levels?]
  case size => decide
  case size' => decide
  case bind => rfl
  case evaluate => rfl
  case evaluate' => rfl
  case reads => exact .tail _ (.tail _ (.head _))
  case same =>
    intro i hi field hf
    have hi : i = 1 ∨ i = 2 := by simpa using (show i ∈ [1, 2] from hi)
    rcases hi with rfl | rfl <;> cases hf <;> rfl

end Evaluation

end ModelFormula
