import Mathlib.Data.List.Sort
import ModelFormula.Proofs.OutputLayout
import ModelFormula.Proofs.Reevaluation
import ModelFormula.Proofs.Slices

/-! # Batches that fit a bound formula

A bound formula reads the input fields that its variables name, and nothing else of a batch
matters: it is evaluated exactly when each of these fields has a column of a storage type that can
be read as the field. Otherwise the first field without such a column, in the order of the schema,
is the fault.
-/

namespace ModelFormula

/-! ## Fields and columns that fit -/

/-- The storage types that are read as a data type: its own, and for a category texts, plain or as
the values of a dictionary. -/
inductive DataType.StoredAs : DataType → StorageType → Prop where

  | own {type : DataType} : type.levels? = none → StoredAs type type.storage

  | labels {levels : List String} {layout : TextLayout} : layout ≠ .view →
      StoredAs (.categorical levels) (.text layout)

  | dictionary {levels : List String} {key : IntegerKind} {layout : TextLayout} : layout ≠ .view →
      StoredAs (.categorical levels) (.dictionary key (.text layout))

theorem StorageType.isLabel_iff {found : StorageType} :
    found.isLabel = true ↔ ∃ layout, layout ≠ .view ∧ found = .text layout := by
  cases found with
  | text layout => cases layout <;> simp [isLabel]
  | boolean | integer | float32 | float64 | date32 | null | dictionary => simp [isLabel]

theorem DataType.accepts_iff {type : DataType} {found : StorageType} :
    type.accepts found = true ↔ type.StoredAs found := by
  constructor
  · intro h
    cases type with
    | categorical levels =>
      cases found with
      | dictionary key value =>
        obtain ⟨layout, hlayout, rfl⟩ := StorageType.isLabel_iff.mp h
        exact .dictionary hlayout
      | text layout =>
        obtain ⟨layout, hlayout, ⟨⟩⟩ := StorageType.isLabel_iff.mp h
        exact .labels hlayout
      | boolean | integer | float32 | float64 | date32 | null => cases h
    | bool | i8 | i16 | i32 | i64 | f32 | f64 | string => exact of_decide_eq_true h ▸ .own rfl
  · intro h
    cases h with
    | own => exact accepts_storage _
    | labels hlayout => exact StorageType.isLabel_iff.mpr ⟨_, hlayout, rfl⟩
    | dictionary hlayout => exact StorageType.isLabel_iff.mpr ⟨_, hlayout, rfl⟩

theorem DataType.StoredAs.eq_storage {type : DataType} {found : StorageType}
    (h : type.StoredAs found) (hlevels : type.levels? = none) : found = type.storage := by
  cases h with
  | own => rfl
  | labels | dictionary => cases hlevels

/-- The column that the name of a field means in a batch is there and can be read as the field. -/
def Batch.Fits (batch : Batch) (field : Field) : Prop :=
  ∃ column, batch.column? field.name = some column ∧ field.type.StoredAs column.storage

namespace Source

variable {batch : Batch} {used : List Nat} {start : Nat} {field : Field} {fields : List Field}
  {error : EvaluationError}

theorem exists_decode_iff : (∃ source, decode batch field = .ok source) ↔ batch.Fits field := by
  simp only [decode_eq_ok_iff, Batch.Fits, ← DataType.accepts_iff]
  constructor
  · rintro ⟨-, column, hcolumn, hfits, -⟩
    exact ⟨column, hcolumn, hfits⟩
  · rintro ⟨column, hcolumn, hfits⟩
    exact ⟨_, column, hcolumn, hfits, rfl⟩

theorem decode_eq_error_iff : decode batch field = .error error ↔ ¬ batch.Fits field ∧
    error = .mismatch field ((batch.column? field.name).map Column.storage) := by
  unfold Batch.Fits decode
  cases batch.column? field.name with
  | none => simp [eq_comm]
  | some column =>
    simp only [Option.some.injEq, exists_eq_left', ← DataType.accepts_iff]
    split
    · next h => simp [h]
    · next h => simp [h, eq_comm]

def fault? (batch : Batch) (field : Field) : Option EvaluationError :=
  match decode batch field with
  | .error error => some error
  | .ok _ => none

theorem fault?_eq_some_iff : fault? batch field = some error ↔ ¬ batch.Fits field ∧
    error = .mismatch field ((batch.column? field.name).map Column.storage) := by
  rw [← decode_eq_error_iff, fault?]
  cases decode batch field <;> simp

theorem fault?_eq_none_iff : fault? batch field = none ↔ batch.Fits field := by
  rw [← exists_decode_iff, fault?]
  cases decode batch field <;> simp

/-- The fields at the positions in `used`, where the first field has position `start`. -/
def readFields (used : List Nat) (start : Nat) (fields : List Field) : List Field :=
  ((fields.zipIdx start).filter fun field => field.2 ∈ used).map Prod.fst

theorem readFields_cons : readFields used start (field :: fields) =
    (if start ∈ used then [field] else []) ++ readFields used (start + 1) fields := by
  unfold readFields
  rw [List.zipIdx_cons, List.filter_cons]
  split <;> simp_all

theorem map_snd_filter_zipIdx (hused : used.Pairwise (· < ·))
    (hlt : ∀ i ∈ used, i < fields.length) :
    (fields.zipIdx.filter fun field => field.2 ∈ used).map Prod.snd = used := by
  have hsame : (List.range fields.length).filter (· ∈ used) = used := by
    -- Increasing lists are the same when they have the same members.
    refine (List.pairwise_lt_range.filter _).eq_of_mem_iff hused fun i => ?_
    simpa using hlt i
  calc (fields.zipIdx.filter fun field => field.2 ∈ used).map Prod.snd
    _ = (fields.zipIdx.map Prod.snd).filter (· ∈ used) := by
      rw [List.filter_map]
      rfl
    _ = (List.range fields.length).filter (· ∈ used) := by
      rw [List.zipIdx_map_snd, List.range_eq_range']
    _ = used := hsame

theorem readFields_eq_filterMap (hused : used.Pairwise (· < ·))
    (hlt : ∀ i ∈ used, i < fields.length) :
    readFields used 0 fields = used.filterMap (fields[·]?) :=
  calc readFields used 0 fields
    _ = (fields.zipIdx.filter fun field => field.2 ∈ used).filterMap (fields[·.2]?) := by
      rw [readFields, ← List.filterMap_eq_map]
      refine List.filterMap_congr fun field hfield => ?_
      exact (List.mem_zipIdx_iff_getElem?.mp (List.mem_of_mem_filter hfield)).symm
    _ = ((fields.zipIdx.filter fun field => field.2 ∈ used).map Prod.snd).filterMap (fields[·]?) :=
      List.filterMap_map.symm
    _ = used.filterMap (fields[·]?) := by rw [map_snd_filter_zipIdx hused hlt]

/-- Decoding stops at the first field that is read and does not fit. -/
theorem decodeAll_eq_error_iff : decodeAll batch used start fields = .error error ↔
    (readFields used start fields).findSome? (fault? batch) = some error := by
  induction fields generalizing start with
  | nil => simp [decodeAll, readFields]
  | cons field fields ih =>
    rw [readFields_cons, decodeAll]
    by_cases hused : start ∈ used
    · simp only [if_pos hused, List.singleton_append, List.findSome?_cons, fault?]
      cases decode batch field with
      | error first => simp [Except.map]
      | ok source => exact map_eq_error_iff.trans ih
    · simpa [hused, map_eq_error_iff] using ih

end Source

/-! ## The fields that a bound formula reads -/

namespace Term

variable {s : Schema} {t : Term} {name : String}

theorem mem_columns_interaction {terms : List Term} :
    name ∈ (interaction terms).columns ↔ ∃ t ∈ terms, name ∈ t.columns := by
  rw [columns, columnsAll_eq, List.mem_flatMap]

theorem IsNumeric.exists_field (h : IsNumeric s t) (hname : name ∈ t.columns) :
    ∃ field ∈ s.fields, field.name = name ∧ field.type ≠ .string := by
  induction h with
  | column hmem htype =>
    obtain rfl := List.mem_singleton.mp hname
    exact ⟨_, hmem, rfl, htype⟩
  | function _ _ ih => exact ih hname
  | interaction _ _ ih =>
    obtain ⟨t, ht, hname⟩ := mem_columns_interaction.mp hname
    exact ih t ht hname

theorem IsOperand.exists_field (h : IsOperand s t) (hname : name ∈ t.columns) :
    ∃ field ∈ s.fields, field.name = name ∧ field.type ≠ .string := by
  cases h with
  | column hmem htype =>
    obtain rfl := List.mem_singleton.mp hname
    exact ⟨_, hmem, rfl, htype⟩
  | number h => exact h.exists_field hname

theorem IsPlannable.exists_field (h : IsPlannable s t) (hname : name ∈ t.columns) :
    ∃ field ∈ s.fields, field.name = name ∧ field.type ≠ .string := by
  cases h with
  | column hmem htype => exact IsOperand.exists_field (.column hmem htype) hname
  | function h => exact h.exists_field hname
  | interaction _ hterms =>
    obtain ⟨t, ht, hname⟩ := mem_columns_interaction.mp hname
    exact (hterms t ht).exists_field hname

end Term

def Formula.columns (f : Formula) : List String := f.terms.flatMap Term.columns

namespace BoundFormula

variable {f : Formula} {s : Schema} {b : BoundFormula} {batch : Batch} {e : Evaluation} {i : Nat}
  {field : Field} {error : EvaluationError}

/-- The terms of the plans are those of the formula; only the intercept has no plan. -/
theorem map_term_readers (hb : f.bind s = .ok b) : b.readers.map TermPlan.term =
    b.formula.responseTerm?.toList ++ b.formula.predictors.filter (· ≠ .intercept) := by
  have hlaid := Formula.bind_laidOut hb
  rw [readers, List.map_append, hlaid.predictors, ← hlaid.response]
  cases b.response <;> rfl

theorem mem_columns_formula_iff (hb : f.bind s = .ok b) {name : String} :
    name ∈ b.formula.columns ↔ ∃ p ∈ b.readers, name ∈ p.term.columns := by
  have hterms : (∃ p ∈ b.readers, name ∈ p.term.columns) ↔
      ∃ t ∈ b.readers.map TermPlan.term, name ∈ t.columns := by simp
  rw [hterms, map_term_readers hb, Formula.columns, Formula.terms]
  simp only [List.mem_flatMap, List.mem_append, List.mem_filter, decide_eq_true_eq]
  constructor
  · rintro ⟨t, ht | ht, hname⟩
    · exact ⟨t, .inl ht, hname⟩
    · refine ⟨t, .inr ⟨ht, ?_⟩, hname⟩
      rintro rfl
      cases hname
  · rintro ⟨t, ht | ht, hname⟩
    · exact ⟨t, .inl ht, hname⟩
    · exact ⟨t, .inr ht.1, hname⟩

/-- The positions that are read are those of the columns in the formula. -/
theorem mem_usedColumns_iff (hb : f.bind s = .ok b) :
    i ∈ b.usedColumns ↔ ∃ name ∈ b.formula.columns, s.indexOf? name = some i := by
  have hlaid := Formula.bind_laidOut hb
  rw [usedColumns, mem_ascending, List.mem_flatMap]
  constructor
  · rintro ⟨p, hp, hi⟩
    obtain ⟨name, hname, hindex⟩ := ((hlaid.plans p hp).mem_sources i).mp hi
    exact ⟨name, (mem_columns_formula_iff hb).mpr ⟨p, hp, hname⟩, hindex⟩
  · rintro ⟨name, hname, hindex⟩
    obtain ⟨p, hp, hname⟩ := (mem_columns_formula_iff hb).mp hname
    exact ⟨p, hp, ((hlaid.plans p hp).mem_sources i).mpr ⟨name, hname, hindex⟩⟩

theorem mem_usedColumns_of_field (hb : f.bind s = .ok b) (hf : s.fields[i]? = some field) :
    i ∈ b.usedColumns ↔ field.name ∈ b.formula.columns := by
  have hindex : s.indexOf? field.name = some i :=
    Schema.indexOf?_eq_some_iff.mpr ⟨field, hf, rfl⟩
  rw [mem_usedColumns_iff hb]
  constructor
  · rintro ⟨name, hname, hi⟩
    obtain ⟨other, hother, rfl⟩ := Schema.indexOf?_eq_some_iff.mp hi
    obtain rfl : field = other := Option.some.inj (hf.symm.trans hother)
    exact hname
  · exact fun hname => ⟨_, hname, hindex⟩

theorem readFields_eq_filter (hb : f.bind s = .ok b) :
    Source.readFields b.usedColumns 0 s.fields =
      s.fields.filter fun field => field.name ∈ b.formula.columns := by
  have hfilter : (s.fields.zipIdx.filter fun field => field.2 ∈ b.usedColumns) =
      s.fields.zipIdx.filter ((fun field : Field => decide (field.name ∈ b.formula.columns)) ∘
        Prod.fst) := by
    refine List.filter_congr fun (field, i) hfield => decide_eq_decide.mpr ?_
    exact mem_usedColumns_of_field hb (List.mem_zipIdx_iff_getElem?.mp hfield)
  rw [Source.readFields, hfilter, ← List.filter_map, List.zipIdx_map_fst]

theorem lt_of_mem_usedColumns (hb : f.bind s = .ok b) (hi : i ∈ b.usedColumns) :
    i < s.fields.length := by
  obtain ⟨name, -, hindex⟩ := (mem_usedColumns_iff hb).mp hi
  obtain ⟨field, hfield, -⟩ := Schema.indexOf?_eq_some_iff.mp hindex
  exact (List.getElem?_eq_some_iff.mp hfield).1

theorem sourceFields_eq_filter (hb : f.bind s = .ok b) :
    b.sourceFields = s.fields.filter fun field => field.name ∈ b.formula.columns := by
  rw [← readFields_eq_filter hb, sourceFields, input_of_bind hb]
  refine (Source.readFields_eq_filterMap (pairwise_ascending _) fun i hi => ?_).symm
  exact lt_of_mem_usedColumns hb hi

theorem ne_string_of_mem_sourceFields (hb : f.bind s = .ok b) (hf : field ∈ b.sourceFields) :
    field.type ≠ .string := by
  rw [sourceFields_eq_filter hb, List.mem_filter, decide_eq_true_eq] at hf
  obtain ⟨p, hp, hname⟩ := (mem_columns_formula_iff hb).mp hf.2
  have hplannable := Term.exists_planned_iff.mp ⟨p, planned_of_mem_readers hb hp⟩
  obtain ⟨other, hother, hsame, htype⟩ := hplannable.exists_field hname
  rwa [Schema.field_unique hf.1 hother hsame.symm]

theorem evaluate_eq_error_iff_fault? (hb : f.bind s = .ok b) : b.evaluate batch = .error error ↔
    b.sourceFields.findSome? (Source.fault? batch) = some error := by
  rw [evaluate_eq_error_iff, Source.decodeAll_eq_error_iff, input_of_bind hb,
    readFields_eq_filter hb, sourceFields_eq_filter hb]

theorem exists_evaluate_iff (hb : f.bind s = .ok b) :
    (∃ e, b.evaluate batch = .ok e) ↔ ∀ field ∈ b.sourceFields, batch.Fits field := by
  have hfits : (∀ field ∈ b.sourceFields, batch.Fits field) ↔
      b.sourceFields.findSome? (Source.fault? batch) = none := by
    simp only [List.findSome?_eq_none_iff, Source.fault?_eq_none_iff]
  rw [hfits, Option.eq_none_iff_forall_ne_some]
  simp only [ne_eq, ← evaluate_eq_error_iff_fault? hb]
  cases b.evaluate batch with
  | ok e => simp
  | error error => simp

theorem response_eq_none_iff (hb : f.bind s = .ok b) : b.response = none ↔ f.response = none := by
  cases hf : f.response with
  | none =>
    have hlaid := Formula.bind_laidOut hb
    obtain ⟨hformula, -⟩ := Formula.expand_eq_ok_iff.mp hlaid.resolved
    have hnone : b.formula.responseTerm? = none := by
      rw [← hformula]
      simp [Formula.resolveDot, Formula.responseTerm?, hf]
    simpa [hnone] using hlaid.response
  | some response =>
    have hterm : f.responseTerm? = some response.term := by rw [Formula.responseTerm?, hf]; rfl
    obtain ⟨p, hp, -⟩ := exists_response_of_bind hb hterm
    simp [hp]

theorem y_eq_error_iff (hb : f.bind s = .ok b) (he : b.evaluate batch = .ok e) :
    e.y = .error error ↔ error = .noResponse ∧ f.response = none := by
  obtain ⟨rfl, -, -⟩ := evaluate_eq_ok_iff.mp he
  rw [← response_eq_none_iff hb]
  cases hr : e.bound.response with
  | none => simp [Evaluation.y, hr, eq_comm]
  | some p =>
    obtain ⟨field, column, -, -, hy⟩ := Evaluation.exists_response_column hb hr
    simp [hy]

/-- The field is the first of the source fields that has no column that fits, and the error says
so. -/
structure FailsAt (b : BoundFormula) (batch : Batch) (error : EvaluationError) (field : Field) :
    Prop where

  first : ∃ before after, b.sourceFields = before ++ field :: after ∧
    ∀ earlier ∈ before, batch.Fits earlier

  unfit : ¬ batch.Fits field

  told : error = .mismatch field ((batch.column? field.name).map Column.storage)

/-- What a bound formula does with a batch, as far as its source fields decide it. -/
structure DecidedBySources (f : Formula) (s : Schema) (b : BoundFormula) : Prop where

  fields : b.sourceFields = s.fields.filter fun field => field.name ∈ b.formula.columns

  nodup : (b.sourceFields.map Field.name).Nodup

  typed : ∀ field ∈ b.sourceFields, field.type ≠ .string

  succeeds : ∀ batch, (∃ e, b.evaluate batch = .ok e) ↔ ∀ field ∈ b.sourceFields, batch.Fits field

  fails : ∀ batch error, b.evaluate batch = .error error ↔ ∃ field, b.FailsAt batch error field

  response : ∀ batch e, b.evaluate batch = .ok e → ∀ error,
    e.y = .error error ↔ error = .noResponse ∧ f.response = none

/-- The source fields alone decide which batches a bound formula takes. -/
theorem bind_decidedBySources (hb : f.bind s = .ok b) : b.DecidedBySources f s := by
  refine ⟨sourceFields_eq_filter hb, ?nodup, fun field => ne_string_of_mem_sourceFields hb,
    fun batch => exists_evaluate_iff hb, ?fails, fun batch e he error => y_eq_error_iff hb he⟩
  case nodup =>
    rw [sourceFields_eq_filter hb]
    exact (s.nodup_names.sublist (List.filter_sublist.map _))
  case fails =>
    intro batch error
    rw [evaluate_eq_error_iff_fault? hb, List.findSome?_eq_some_iff]
    simp only [Source.fault?_eq_none_iff, Source.fault?_eq_some_iff]
    constructor
    · rintro ⟨before, field, after, hfields, ⟨hunfit, herror⟩, hbefore⟩
      exact ⟨field, ⟨before, after, hfields, hbefore⟩, hunfit, herror⟩
    · rintro ⟨field, ⟨before, after, hfields, hbefore⟩, hunfit, herror⟩
      exact ⟨before, field, after, hfields, ⟨hunfit, herror⟩, hbefore⟩

/-- For `log(y) ~ y + g::log(a)` the column `t` is not read, and in a batch where `a` has another
width and `y` is not there, the fault is `a`, which is first in the schema. -/
theorem bind_decidedBySources_function : ∃ (f : Formula) (s : Schema) (b : BoundFormula)
    (batch : Batch),
      f.responseTerm? = some (.function "log" (.variable "y")) ∧
      f.predictors =
        [.variable "y", .interaction [.variable "g", .function "log" (.variable "a")]] ∧
      s.fields = [⟨"a", .i32⟩, ⟨"t", .string⟩, ⟨"g", .categorical ["u", "v"]⟩, ⟨"y", .f64⟩] ∧
      f.bind s = .ok b ∧ b.DecidedBySources f s ∧
      b.sourceFields = [⟨"a", .i32⟩, ⟨"g", .categorical ["u", "v"]⟩, ⟨"y", .f64⟩] ∧
      batch.columns = [("g", .text .long #[some "w"]), ("a", .integer .i64 #[some 1])] ∧
      b.evaluate batch = .error (.mismatch ⟨"a", .i32⟩ (some (.integer .i64))) := by
  refine ⟨⟨some ⟨.function "log" (.variable "y"), false⟩, _, ?distinct⟩, ⟨_, ?names, ?levels⟩, ?b,
    ⟨1, _, ?size⟩, rfl, rfl, rfl, ?bind, bind_decidedBySources ?bind, ?fields, rfl, ?evaluate⟩
  case distinct => decide
  case names => decide
  case levels => simp [DataType.LevelsOk, DataType.levels?]
  case size => decide
  case bind => rfl
  case fields => rfl
  case evaluate => rfl

end BoundFormula

end ModelFormula
