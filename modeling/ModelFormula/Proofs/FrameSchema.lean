import ModelFormula.Model
import ModelFormula.Proofs.Cells
import ModelFormula.Proofs.Description
import ModelFormula.Proofs.FrameColumns

/-! # The schema of a model frame

A frame is put together from columns under their declarations, and nothing on the way is refused:
every column has the rows, the storage type and the keys that its declaration asks for. The
declarations are those of the output schema, and the schema that is told from the columns of the
frame is the output schema again.
-/

namespace ModelFormula

/-! ## Declared columns -/

/-- How a batch declares a column: its name, its storage type, and whether cells of it may be
missing. -/
structure ColumnDeclaration where
  name : String
  type : StorageType
  nullable : Bool
  deriving DecidableEq

def Field.columnDeclaration (field : Field) : ColumnDeclaration :=
  ⟨field.name, field.type.storage, true⟩

def Schema.columnDeclarations (s : Schema) : List ColumnDeclaration :=
  s.fields.map Field.columnDeclaration

def Column.keysInRange : Column → Bool
  | dictionary _ keys values => keys.all fun key => key.all (· < values.size)
  | _ => true

/-- Whether a column may stand under a declaration in a batch with this number of rows. -/
def ColumnDeclaration.admits (declared : ColumnDeclaration) (rows : Nat) (column : Column) : Bool :=
  decide (column.size = rows) && decide (column.storage = declared.type) &&
    (declared.nullable || column.cells.all Option.isSome) && column.keysInRange

/-- The batch of columns under their declarations. It is refused when there is not one declaration
for every column, or one that does not admit its column. -/
def Batch.assemble? (rows : Nat) (declarations : List ColumnDeclaration) (columns : List Column) :
    Option Batch :=
  if declarations.length = columns.length ∧
      ∀ entry ∈ declarations.zip columns, entry.1.admits rows entry.2 = true then
    ofColumns? rows ((declarations.map ColumnDeclaration.name).zip columns)
  else none

theorem Batch.assemble?_eq_some {rows : Nat} {declarations : List ColumnDeclaration}
    {columns : List Column} {batch : Batch} (hrows : batch.rows = rows)
    (hcolumns : batch.columns = (declarations.map ColumnDeclaration.name).zip columns)
    (hlength : declarations.length = columns.length)
    (hadmits : ∀ entry ∈ declarations.zip columns, entry.1.admits rows entry.2 = true) :
    assemble? rows declarations columns = some batch := by
  have hsize := batch.size_eq
  rw [hrows, hcolumns] at hsize
  rw [assemble?, if_pos ⟨hlength, hadmits⟩, ofColumns?, dif_pos hsize]
  exact congrArg some (Batch.ext hrows.symm hcolumns.symm)

/-! ## The columns of a frame -/

/-- A column is stored as it is produced for a field, and the type of the field can be told from
it. -/
structure Field.Stores (field : Field) (column : Column) : Prop where

  storage : column.storage = field.type.storage

  dataType : column.dataType? = some field.type

  keys : column.keysInRange = true

variable {field : Field} {column : Column}

theorem Field.stores_number (hlevels : field.type.levels? = none) (htype : field.type ≠ .string)
    (hstorage : column.storage = field.type.storage) : field.Stores column := by
  refine ⟨hstorage, (Column.dataType?_eq_some_iff hlevels htype).mpr hstorage, ?_⟩
  cases column with
  | dictionary key keys values =>
    exact absurd hstorage.symm (field.type.storage_ne_dictionary hlevels _ _)
  | boolean | integer | float32 | float64 | text | date32 | null => rfl

theorem Field.stores_category {levels : List String} {keys : Array (Option Nat)}
    (hlevels : field.type.levels? = some levels)
    (hkeys : ∀ code, some code ∈ keys → code < levels.length) :
    field.Stores (.dictionary .i32 keys (.text .short (levels.map some).toArray)) := by
  have htype := DataType.eq_categorical_of_levels? hlevels
  constructor
  · rw [htype]
    rfl
  · rw [htype, Column.dataType?_eq_categorical_iff]
    simp [Column.dictionaryLabels?]
  · rw [Column.keysInRange, Array.all_eq_true_iff_forall_mem]
    intro key hkey
    cases key with
    | none => rfl
    | some code => simpa [Column.size] using hkeys code hkey

namespace Evaluation

variable {f : Formula} {s : Schema} {b : BoundFormula} {batch : Batch} {e : Evaluation} {i : Nat}
  {slot : Field × Column}

theorem stores_slot_plan (htype : field.type ≠ .string)
    (hsource : e.source? i = some (.ofColumn field.type column))
    (hfits : field.type.accepts column.storage = true) (hm : slot ∈ e.slots (field.plan i)) :
    slot.1.Stores slot.2 := by
  cases hlevels : field.type.levels? with
  | none =>
    rw [Source.ofColumn_of_number column hlevels] at hsource
    obtain rfl : slot = (field, column) := by
      simpa [slots, Field.plan, outputColumns, passed, hlevels, hsource] using hm
    refine Field.stores_number hlevels htype ?_
    simpa [DataType.accepts, DataType.isCategorical, hlevels] using hfits
  | some levels =>
    rw [Source.ofColumn_of_levels? column hlevels] at hsource
    obtain rfl : slot =
        (field, .dictionary .i32 (e.codes i) (.text .short (levels.map some).toArray)) := by
      simpa [slots, Field.plan, outputColumns, hlevels] using hm
    refine Field.stores_category hlevels ?_
    rw [codes_of_source? hsource]
    exact fun code => Source.lt_of_mem_codes

theorem stores_of_mem_frameSlots (hb : f.bind s = .ok b) (he : b.evaluate batch = .ok e)
    (hm : slot ∈ e.frameSlots) : slot.1.Stores slot.2 := by
  obtain ⟨rfl, -, -⟩ := BoundFormula.evaluate_eq_ok_iff.mp he
  obtain ⟨p, hp, hslot⟩ := List.mem_flatMap.mp hm
  have hreads := BoundFormula.mem_readers_of_mem_plans hp
  rcases (e.bound.planned_of_mem_readers hb hreads).passes_or_computes with
    ⟨i, field, hget, htype, rfl⟩ | ⟨columns, hcolumns⟩
  · have hused : i ∈ e.bound.usedColumns :=
      BoundFormula.mem_usedColumns.mpr ⟨_, hreads, by simp [Field.columns_plan]⟩
    obtain ⟨column, -, hfits, hsource⟩ :=
      e.bound.source?_of_evaluate he hused (by rwa [e.bound.input_of_bind hb])
    exact stores_slot_plan htype hsource hfits hslot
  · rw [slots_of_computes hcolumns] at hslot
    obtain ⟨c, -, rfl⟩ := List.mem_map.mp hslot
    exact ⟨rfl, rfl, rfl⟩

theorem size_of_mem_frameSlots (hm : slot ∈ e.frameSlots) : slot.2.size = e.rows := by
  have hcolumn : (slot.1.name, slot.2) ∈ e.frame.columns := by
    rw [columns_frame]
    exact List.mem_map_of_mem hm
  exact e.frame.size_eq _ hcolumn

/-! ## The frame under its declarations -/

def declarations (e : Evaluation) : List ColumnDeclaration :=
  e.frameSlots.map fun slot => slot.1.columnDeclaration

/-- The frame as it is put together under the declarations of its columns. -/
def assembledFrame? (e : Evaluation) : Option Batch :=
  Batch.assemble? e.rows e.declarations (e.frameSlots.map Prod.snd)

theorem assembledFrame?_eq_some (hb : f.bind s = .ok b) (he : b.evaluate batch = .ok e) :
    e.assembledFrame? = some e.frame := by
  refine Batch.assemble?_eq_some rfl ?_ (by simp [declarations]) ?_
  · rw [columns_frame, declarations, List.map_map, List.zip_map']
    rfl
  · intro entry hentry
    rw [declarations, List.zip_map'] at hentry
    obtain ⟨slot, hslot, rfl⟩ := List.mem_map.mp hentry
    have hstores := stores_of_mem_frameSlots hb he hslot
    have hsize : slot.2.size = e.rows := size_of_mem_frameSlots hslot
    simp [ColumnDeclaration.admits, Field.columnDeclaration, hsize, hstores.storage, hstores.keys]

/-- The frame has the declared schema: it is put together without fault, under the declarations of
the output schema, and the output schema is told from its columns. -/
structure MaterializesOutput (b : BoundFormula) (batch : Batch) (e : Evaluation) : Prop where

  assembled : e.assembledFrame? = some e.frame

  declared : e.declarations = b.output.columnDeclarations

  storage : e.frame.columns.map (fun column => (column.1, column.2.storage)) = b.output.storage

  model : ∀ m : Model, m.bound = b → e.declarations = m.outputSchema.columnDeclarations

  rows : e.frame.rows = batch.rows ∧ ∀ column ∈ e.frame.columns, column.2.size = batch.rows

  schema : e.frame.schema = .ok b.output

/-- Whatever the plans and the columns of the batch are, the frame has the output schema. -/
theorem evaluate_materializesOutput (hb : f.bind s = .ok b) (he : b.evaluate batch = .ok e) :
    e.MaterializesOutput b batch := by
  have hassembled := assembledFrame?_eq_some hb he
  have hstores {slot : Field × Column} (hslot : slot ∈ e.frameSlots) : slot.1.Stores slot.2 :=
    stores_of_mem_frameSlots hb he hslot
  obtain ⟨rfl, hrows, -⟩ := BoundFormula.evaluate_eq_ok_iff.mp he
  have hfields := fields_output hb
  have hdeclared : e.declarations = e.bound.output.columnDeclarations := by
    rw [declarations, Schema.columnDeclarations, hfields, List.map_map]
    rfl
  refine ⟨hassembled, hdeclared, ?storage, ?model, ⟨hrows, ?rows⟩, ?schema⟩
  case storage =>
    rw [columns_frame, Schema.storage, hfields, List.map_map, List.map_map]
    refine List.map_congr_left fun slot hslot => ?_
    exact congrArg (slot.1.name, ·) (hstores hslot).storage
  case model =>
    rintro m hm
    rw [Model.outputSchema, hm, hdeclared]
  case rows =>
    intro column hcolumn
    rw [← hrows]
    exact e.frame.size_eq column hcolumn
  case schema =>
    rw [Batch.schema_eq_ok_iff, columns_frame, hfields, List.forall₂_map_left_iff,
      List.forall₂_map_right_iff, List.forall₂_same]
    exact fun slot hslot => ⟨rfl, (hstores hslot).dataType⟩

/-- The frame of `y ~ y - y + y + g + a::g` on a batch with its columns in another order, where
numbers are missing, a label is not declared and the labels are keys of one byte. -/
theorem evaluate_materializesOutput_released : ∃ (f : Formula) (s : Schema) (batch : Batch)
    (b : BoundFormula) (e : Evaluation),
      f.response = some ⟨.variable "y", true⟩ ∧
      f.predictors =
        [.variable "y", .variable "g", .interaction [.variable "a", .variable "g"]] ∧
      s.fields = [⟨"y", .f64⟩, ⟨"a", .i32⟩, ⟨"g", .categorical ["u", "v"]⟩] ∧
      batch.columns = [
        ("g", .dictionary .i8 #[some 1, some 0, none] (.text .long #[some "w", some "v"])),
        ("a", .integer .i32 #[none, some 2, some 5]), ("y", .float64 #[some 1, none, some 3])] ∧
      f.bind s = .ok b ∧ b.evaluate batch = .ok e ∧ e.MaterializesOutput b batch ∧
      b.output.storage = [("y", .float64), ("g", .dictionary .i32 (.text .short)),
        ("a::g_u", .float64), ("a::g_v", .float64)] := by
  refine ⟨⟨some ⟨.variable "y", true⟩, _, ?distinct⟩, ⟨_, ?names, ?levels⟩, ⟨3, _, ?size⟩, ?b, ?e,
    rfl, rfl, rfl, rfl, ?bind, ?evaluate, evaluate_materializesOutput ?bind ?evaluate, ?storage⟩
  case distinct => decide
  case names => decide
  case levels => simp [DataType.LevelsOk, DataType.levels?]
  case size => decide
  case bind => rfl
  case evaluate => rfl
  case storage => rfl

end Evaluation

end ModelFormula
