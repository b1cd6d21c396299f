import ModelFormula.Proofs.Compatibility
import ModelFormula.Proofs.Description
import ModelFormula.Proofs.Partitions

/-! # Models opened from a batch

A model whose schema is told from a batch evaluates this batch and all slices of it. The levels of
a category are then the values of the dictionary without the missing ones, so that every key has
the code of its own label, and only a cell without a label is missing.
-/

namespace ModelFormula

/-! ## Columns and the types told from them -/

namespace Column

variable {c : Column} {type : DataType}

theorem dictionaryLabels?_slice (c : Column) (start stop : Nat) :
    (c.slice start stop).dictionaryLabels? = c.dictionaryLabels? := by
  cases c with
  | dictionary key keys values =>
    cases values with
    | text layout labels => cases layout <;> rfl
    | boolean | integer | float32 | float64 | date32 | null | dictionary => rfl
  | boolean | integer | float32 | float64 | text | date32 | null => rfl

theorem dataType?_slice (c : Column) (start stop : Nat) :
    (c.slice start stop).dataType? = c.dataType? := by
  rw [dataType?, dictionaryLabels?_slice, storage_slice, dataType?]

theorem storedAs_of_dataType? (h : c.dataType? = some type) (htype : type ≠ .string) :
    type.StoredAs c.storage := by
  cases hlevels : type.levels? with
  | none =>
    rw [dataType?_eq_some_iff hlevels htype] at h
    exact h ▸ .own hlevels
  | some levels =>
    obtain rfl : type = .categorical levels := DataType.eq_categorical_of_levels? hlevels
    rw [dataType?_eq_categorical_iff, dictionaryLabels?_eq_some_iff] at h
    obtain ⟨key, keys, layout, values, rfl, hlayout, -⟩ := h
    exact .dictionary hlayout

theorem values_of_dataType? {key : IntegerKind} {keys : Array (Option Nat)} {values : Column}
    (h : (dictionary key keys values).dataType? = some type) : ∃ layout labels,
      values = .text layout labels ∧ type = .categorical (labels.toList.filterMap id) := by
  unfold dataType? at h
  cases hlabels : (dictionary key keys values).dictionaryLabels? with
  | none =>
    rw [hlabels] at h
    cases h
  | some levels =>
    rw [hlabels] at h
    obtain ⟨_, _, layout, labels, ⟨⟩, -, rfl⟩ := dictionaryLabels?_eq_some_iff.mp hlabels
    exact ⟨layout, labels, rfl, (Option.some.inj h).symm⟩

end Column

namespace Batch

variable {batch : Batch} {s : Schema} {field : Field}

/-- A slice has the schema of the whole batch, for its dictionaries are kept whole. -/
theorem schema_slice (batch : Batch) (start stop : Nat) :
    (batch.slice start stop).schema = batch.schema := by
  have hfield (column : String × Column) :
      Batch.field (column.1, column.2.slice start stop) = Batch.field column := by
    unfold Batch.field
    rw [Column.dataType?_slice, Column.storage_slice]
  have hcolumns : (batch.slice start stop).columns.mapM Batch.field =
      batch.columns.mapM Batch.field := by
    change (batch.columns.map fun column => (column.1, column.2.slice start stop)).mapM _ = _
    rw [List.mapM_map]
    exact congrArg (batch.columns.mapM ·) (funext hfield)
  unfold schema
  rw [hcolumns]

theorem fits_of_schema (h : batch.schema = .ok s) (hf : field ∈ s.fields)
    (htype : field.type ≠ .string) : batch.Fits field := by
  obtain ⟨i, hi⟩ := List.mem_iff_getElem?.mp hf
  obtain ⟨column, -, hcolumn, hname⟩ := column_of_schema h hi
  exact ⟨column, hname, Column.storedAs_of_dataType? hcolumn htype⟩

end Batch

/-! ## Keys and codes -/

/-- A value of a list with gaps comes as much earlier in the list without gaps as there are gaps
before it. -/
theorem exists_getElem?_filterMap_id {values : List (Option String)} {key : Nat} {label : String}
    (h : values[key]? = some (some label)) : ∃ code,
      (values.filterMap id)[code]? = some label ∧ code + (values.take key).count none = key := by
  induction values generalizing key with
  | nil => cases h
  | cons value values ih =>
    cases key with
    | zero =>
      obtain rfl : value = some label := by simpa using h
      exact ⟨0, rfl, rfl⟩
    | succ key =>
      obtain ⟨code, hcode, hkey⟩ := ih (by simpa using h)
      -- A gap counts for the key but not for the code.
      cases value with
      | none => exact ⟨code, hcode, by rw [List.take_succ_cons, List.count_cons_self]; omega⟩
      | some first => exact ⟨code + 1, hcode, by simp; omega⟩

namespace Evaluation

variable {f : Formula} {s : Schema} {b : BoundFormula} {batch : Batch} {e : Evaluation} {i : Nat}
  {name : String} {levels : List String} {keys : Array (Option Nat)}
  {labels : Array (Option String)}

/-- The codes of a dictionary: a cell has no code exactly when it has no label, and otherwise its
code is that of its own label among the levels. -/
structure DecodesKeys (e : Evaluation) (i : Nat) (levels : List String)
    (keys : Array (Option Nat)) (labels : Array (Option String)) : Prop where

  missing : ∀ row < e.rows, e.code? row i = none ↔ keys[row]? = some none ∨
    ∃ key, keys[row]? = some (some key) ∧ labels[key]?.join = none

  label : ∀ row key label, keys[row]? = some (some key) → labels[key]? = some (some label) →
    ∃ code, e.code? row i = some code ∧ levels[code]? = some label ∧
      code + (labels.toList.take key).count none = key

section Keys

variable {column : Column} {row key : Nat} {label : String}
  (hsource : e.source? i = some (.factor (Source.codes (labels.toList.filterMap id) column)))
  (hlabel : ∀ row, column.label? row = keys[row]?.join.bind fun key => labels[key]?.join)

include hsource hlabel

theorem code?_of_key (hrow : row < column.size) (hnodup : (labels.toList.filterMap id).Nodup)
    (hkey : keys[row]? = some (some key)) (hvalue : labels[key]? = some (some label)) :
    ∃ code, e.code? row i = some code ∧ (labels.toList.filterMap id)[code]? = some label ∧
      code + (labels.toList.take key).count none = key := by
  obtain ⟨code, hcode, hcount⟩ := exists_getElem?_filterMap_id (Array.getElem?_toList.trans hvalue)
  have hown : column.label? row = some label := by
    rw [hlabel, hkey, Option.join_some, Option.bind_some, hvalue, Option.join_some]
  exact ⟨code, (code?_eq_some_iff hsource hrow hnodup).mpr ⟨label, hown, hcode⟩, hcode, hcount⟩

theorem decodesKeys_of_source? (hrows : column.size = e.rows) (hkeys : column.size = keys.size)
    (hnodup : (labels.toList.filterMap id).Nodup) :
    e.DecodesKeys i (labels.toList.filterMap id) keys labels := by
  constructor
  case label =>
    intro row key label hkey hvalue
    have hrow : row < column.size := hkeys ▸ (Array.getElem?_eq_some_iff.mp hkey).1
    exact code?_of_key hsource hlabel hrow hnodup hkey hvalue
  case missing =>
    intro row hrow
    rw [← hrows] at hrow
    cases hkey : keys[row]? with
    | none => exact absurd (hkeys ▸ hrow) (Nat.not_lt.mpr (Array.getElem?_eq_none_iff.mp hkey))
    | some key? =>
      cases key? with
      | none => simp [code?_of_source? hsource hrow, hlabel, hkey]
      | some key =>
        cases hvalue : labels[key]?.join with
        | none => simp [code?_of_source? hsource hrow, hlabel, hkey, hvalue]
        | some label =>
          obtain ⟨code, hcode, -, -⟩ := code?_of_key hsource hlabel hrow hnodup hkey
            (Option.join_eq_some_iff.mp hvalue)
          simp [hcode, hvalue]

end Keys

theorem decodesKeys_of_schema {key : IntegerKind} {values : Column} (hs : batch.schema = .ok s)
    (hb : f.bind s = .ok b) (he : b.evaluate batch = .ok e)
    (hc : batch.columns[i]? = some (name, .dictionary key keys values))
    (hname : name ∈ b.formula.columns) : ∃ layout labels levels, values = .text layout labels ∧
      s.fields[i]? = some ⟨name, .categorical levels⟩ ∧ e.DecodesKeys i levels keys labels := by
  have hi : i < s.fields.length := by
    have hnames := congrArg List.length (Batch.names_of_schema hs)
    rw [Schema.names, List.length_map, List.length_map] at hnames
    exact hnames ▸ (List.getElem?_eq_some_iff.mp hc).1
  obtain ⟨field, hf⟩ : ∃ field, s.fields[i]? = some field := ⟨_, List.getElem?_eq_getElem hi⟩
  obtain ⟨column, hget, htype, hcolumn⟩ := Batch.column_of_schema hs hf
  obtain ⟨rfl, rfl⟩ : name = field.name ∧ .dictionary key keys values = column := by
    simpa using hc.symm.trans hget
  -- The levels of the field are the labels of this very dictionary.
  obtain ⟨layout, labels, rfl, hlevels⟩ := Column.values_of_dataType? htype
  refine ⟨layout, labels, labels.toList.filterMap id, rfl, ?field, ?decodes⟩
  case field => rw [hf, ← hlevels]
  case decodes =>
    have hused := (BoundFormula.mem_usedColumns_of_field hb hf).mpr hname
    obtain ⟨other, hother, -, hsource⟩ :=
      b.source?_of_evaluate he hused (by rwa [b.input_of_bind hb])
    obtain rfl := Option.some.inj (hcolumn.symm.trans hother)
    rw [hlevels, Source.ofColumn_of_levels? _ rfl] at hsource
    have hnodup : (labels.toList.filterMap id).Nodup :=
      (s.levelsOk field (List.mem_of_getElem? hf) _ (by rw [hlevels]; rfl)).2
    obtain ⟨rfl, hrows, -⟩ := BoundFormula.evaluate_eq_ok_iff.mp he
    refine decodesKeys_of_source? hsource (fun _ => rfl) ?_ rfl hnodup
    rw [Batch.size_of_column? hcolumn, hrows]

end Evaluation

namespace Model

variable {m : Model} {text : String} {batch : Batch}

/-- A batch is evaluated, and its dictionaries that are read are decoded key by key. -/
structure DecodesOwn (m : Model) (batch : Batch) (e : Evaluation) : Prop where

  evaluates : m.evaluate batch = .ok e

  dictionaries : ∀ i name key keys values,
    batch.columns[i]? = some (name, .dictionary key keys values) → name ∈ m.bound.formula.columns →
      ∃ layout labels levels, values = .text layout labels ∧
        m.bound.input.fields[i]? = some ⟨name, .categorical levels⟩ ∧
          e.DecodesKeys i levels keys labels

theorem exists_decodesOwn {f : Formula} {s : Schema} (hs : batch.schema = .ok s)
    (hb : f.bind s = .ok m.bound) : ∃ e, m.DecodesOwn batch e := by
  obtain ⟨e, he⟩ : ∃ e, m.bound.evaluate batch = .ok e := by
    refine (BoundFormula.exists_evaluate_iff hb).mpr fun field hfield => ?_
    have hf : field ∈ s.fields := by
      rw [BoundFormula.sourceFields_eq_filter hb] at hfield
      exact List.mem_of_mem_filter hfield
    exact Batch.fits_of_schema hs hf (BoundFormula.ne_string_of_mem_sourceFields hb hfield)
  refine ⟨e, evaluate_eq_ok_iff.mpr he, fun i name key keys values hc hname => ?_⟩
  rw [m.bound.input_of_bind hb]
  exact Evaluation.decodesKeys_of_schema hs hb he hc hname

/-- A model opened from a batch has the schema of the batch, and evaluates the batch and all its
slices without an unknown label. -/
structure OwnsBatch (m : Model) (batch : Batch) : Prop where

  schema : batch.schema = .ok m.bound.input

  whole : ∃ e, m.DecodesOwn batch e

  slices : ∀ start stop, ∃ e, m.DecodesOwn (batch.slice start stop) e

theorem ofBatch_eq_ok_iff : ofBatch text batch = .ok m ↔ ∃ s f, batch.schema = .ok s ∧
    Formula.parse text = .ok f ∧ f.bind s = .ok m.bound := by
  unfold ofBatch parse ofFormula
  cases batch.schema with
  | error error => simp
  | ok s =>
    cases Formula.parse text with
    | error error => simp
    | ok f =>
      simp only [map_eq_ok_iff, mapError_eq_ok_iff, Except.ok.injEq]
      constructor
      · rintro ⟨b, hb, rfl⟩
        exact ⟨s, f, rfl, rfl, hb⟩
      · rintro ⟨_, _, rfl, rfl, hb⟩
        exact ⟨m.bound, hb, rfl⟩

theorem ofBatch_ownsBatch (h : ofBatch text batch = .ok m) : m.OwnsBatch batch := by
  obtain ⟨s, f, hs, -, hb⟩ := ofBatch_eq_ok_iff.mp h
  refine ⟨?schema, exists_decodesOwn hs hb, fun start stop => ?slice⟩
  case schema => rw [hs, m.bound.input_of_bind hb]
  case slice =>
    rw [← batch.schema_slice start stop] at hs
    exact exists_decodesOwn hs hb

/-- The model of `y ~ g + a::g` on a batch where a value of the dictionary is missing and one is not
used, and where the keys of one byte are for a missing cell, a missing value and two labels. -/
theorem ofBatch_ownsBatch_gaps : ∃ (batch : Batch) (m : Model),
    batch.columns = [("g", .dictionary .i8 #[some 3, none, some 1, some 0]
        (.text .long #[some "u", none, some "v", some "w"])),
      ("y", .float64 #[some 1, none, some 3, some 4]),
      ("a", .integer .i32 #[none, some 2, some 5, some 7])] ∧
    ofBatch "y ~ g + a::g" batch = .ok m ∧ m.OwnsBatch batch := by
  refine ⟨⟨4, _, ?size⟩, ?m, rfl, ?model, ofBatch_ownsBatch ?model⟩
  case size => decide
  case model => rfl

end Model

end ModelFormula
