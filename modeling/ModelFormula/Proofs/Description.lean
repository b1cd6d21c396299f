import ModelFormula.Table.Description
import ModelFormula.Proofs.Frame

/-! # The schema of a batch

A column has the data type of its storage, and a dictionary of texts is a category of its labels.
The fields of the schema of a batch are its columns in order, so their names are distinct and a
name means the same column in the schema and in the batch.
-/

namespace ModelFormula

variable {type : DataType} {found : StorageType}

theorem DataType.eq_categorical_of_levels? {levels : List String}
    (h : type.levels? = some levels) : type = .categorical levels := by
  cases type with
  | categorical => exact congrArg categorical (Option.some.inj h)
  | bool | i8 | i16 | i32 | i64 | f32 | f64 | string => cases h

theorem DataType.storage_ne_dictionary (h : type.levels? = none) (key : IntegerKind)
    (value : StorageType) : type.storage ≠ .dictionary key value := by
  cases type with
  | categorical => cases h
  | bool | i8 | i16 | i32 | i64 | f32 | f64 | string => exact StorageType.noConfusion

theorem StorageType.dataType?_eq_some_iff (h : type ≠ .string) :
    found.dataType? = some type ↔ type.levels? = none ∧ found = type.storage := by
  constructor
  · intro hfound
    unfold dataType? at hfound
    split at hfound <;> cases hfound <;> first | exact ⟨rfl, rfl⟩ | exact absurd rfl h
  · rintro ⟨hlevels, rfl⟩
    cases type with
    | categorical => cases hlevels
    | string => exact absurd rfl h
    | bool | i8 | i16 | i32 | i64 | f32 | f64 => rfl

namespace Column

variable {c : Column}

theorem dictionaryLabels?_eq_some_iff {labels : List String} :
    c.dictionaryLabels? = some labels ↔ ∃ key keys layout values,
      c = .dictionary key keys (.text layout values) ∧ layout ≠ .view ∧
        labels = values.toList.filterMap id := by
  constructor
  · intro h
    unfold dictionaryLabels? at h
    split at h
    · cases h
    · next key keys layout values hview =>
      exact ⟨key, keys, layout, values, rfl, hview,
        (Option.some.inj h).symm⟩
    · cases h
  · rintro ⟨key, keys, layout, values, rfl, hview, rfl⟩
    cases layout with
    | view => exact absurd rfl hview
    | short | long => rfl

theorem dataType?_eq_categorical_iff {levels : List String} :
    c.dataType? = some (.categorical levels) ↔ c.dictionaryLabels? = some levels := by
  unfold dataType?
  cases c.dictionaryLabels? with
  | some labels => simp
  | none =>
    have hplain : c.storage.dataType? ≠ some (.categorical levels) := by
      rw [ne_eq, StorageType.dataType?_eq_some_iff DataType.noConfusion]
      exact fun h => nomatch h.1
    simp [hplain]

theorem dataType?_eq_some_iff (hlevels : type.levels? = none) (htype : type ≠ .string) :
    c.dataType? = some type ↔ c.storage = type.storage := by
  unfold dataType?
  cases hlabels : c.dictionaryLabels? with
  | none => simp [StorageType.dataType?_eq_some_iff htype, hlevels]
  | some labels =>
    obtain ⟨key, keys, layout, values, rfl, -, -⟩ := dictionaryLabels?_eq_some_iff.mp hlabels
    cases type with
    | categorical => cases hlevels
    | string => exact absurd rfl htype
    | bool | i8 | i16 | i32 | i64 | f32 | f64 => simp [storage, DataType.storage]

end Column

namespace Batch

variable {batch : Batch} {s : Schema} {field : Field} {i : Nat}

theorem field_eq_ok_iff {column : String × Column} :
    Batch.field column = .ok field ↔ column.1 = field.name ∧
      column.2.dataType? = some field.type := by
  unfold Batch.field
  cases column.2.dataType? with
  | none => simp
  | some type =>
    cases field
    simp

theorem schema_eq_ok_iff : batch.schema = .ok s ↔ List.Forall₂
    (fun column field => column.1 = field.name ∧ column.2.dataType? = some field.type)
    batch.columns s.fields := by
  simp only [schema, bind_eq_ok_iff, mapError_eq_ok_iff, Schema.ofFields_eq_ok_iff, mapM_eq_ok_iff,
    field_eq_ok_iff]
  exact ⟨fun ⟨_, h, e⟩ => e ▸ h, fun h => ⟨_, h, rfl⟩⟩

theorem names_of_schema (h : batch.schema = .ok s) : batch.columns.map Prod.fst = s.names := by
  rw [Schema.names, ← List.forall₂_eq_eq_eq, List.forall₂_map_left_iff, List.forall₂_map_right_iff]
  exact (schema_eq_ok_iff.mp h).imp fun _ _ hcolumn => hcolumn.1

/-- The column at a position has the name and the data type of the field there, and it is the
column that the name means. -/
theorem column_of_schema (h : batch.schema = .ok s) (hf : s.fields[i]? = some field) :
    ∃ column, batch.columns[i]? = some (field.name, column) ∧
      column.dataType? = some field.type ∧ batch.column? field.name = some column := by
  obtain ⟨hlength, hall⟩ := List.forall₂_iff_get.mp (schema_eq_ok_iff.mp h)
  obtain ⟨hi, rfl⟩ := List.getElem?_eq_some_iff.mp hf
  have hi' : i < batch.columns.length := hlength ▸ hi
  obtain ⟨hname, htype⟩ := hall i hi' hi
  simp only [List.get_eq_getElem] at hname htype
  have hcolumn : batch.columns[i]? = some (s.fields[i].name, batch.columns[i].2) := by
    rw [List.getElem?_eq_getElem hi', ← hname]
  refine ⟨_, hcolumn, htype, column?_of_mem ?_ (List.mem_of_getElem? hcolumn)⟩
  rw [names_of_schema h]
  exact s.nodup_names

end Batch

end ModelFormula
