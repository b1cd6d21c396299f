import ModelFormula.Design.Evaluation
import ModelFormula.Proofs.Binding

/-! # Decoded columns

A plan names a column by its position in the schema, a batch names it by its name. Evaluation
succeeds when every field that is read has a column in the batch that fits it, and then the source
at the position of the field is this column.
-/

namespace ModelFormula

namespace Source

variable {batch : Batch} {used : List Nat} {start : Nat} {field : Field} {fields : List Field}
  {source : Source} {sources : List (Option Source)}

theorem decode_eq_ok_iff : decode batch field = .ok source ↔ ∃ column,
    batch.column? field.name = some column ∧ field.type.accepts column.storage = true ∧
      ofColumn field.type column = source := by
  unfold decode
  cases batch.column? field.name with
  | none => simp
  | some column =>
    cases h : field.type.accepts column.storage with
    | false => simp [h]
    | true => simp [h]

theorem ofColumn_of_levels? {type : DataType} {levels : List String} (column : Column)
    (h : type.levels? = some levels) : ofColumn type column = .factor (codes levels column) := by
  rw [ofColumn, h]

theorem ofColumn_of_number {type : DataType} (column : Column) (h : type.levels? = none) :
    ofColumn type column = .numeric column := by
  rw [ofColumn, h]

/-- What becomes of a field: it is decoded if its position is used. -/
def Decodes (batch : Batch) (used : List Nat) (field : Field × Nat) (source : Option Source) :
    Prop :=
  if field.2 ∈ used then ∃ decoded, decode batch field.1 = .ok decoded ∧ some decoded = source
  else none = source

theorem decodeAll_eq_ok_iff : decodeAll batch used start fields = .ok sources ↔
    List.Forall₂ (Decodes batch used) (fields.zipIdx start) sources := by
  induction fields generalizing start sources with
  | nil => simp [decodeAll, eq_comm]
  | cons field fields ih =>
    have hfirst {source : Option Source} :
        (if start ∈ used then (decode batch field).map some else .ok none) = .ok source ↔
          Decodes batch used (field, start) source := by
      unfold Decodes
      split
      · exact map_eq_ok_iff
      · simp
    rw [List.zipIdx_cons, List.forall₂_cons_left_iff, decodeAll]
    constructor
    · intro h
      split at h
      · cases h
      · next source hsource =>
        obtain ⟨rest, hrest, rfl⟩ := map_eq_ok_iff.mp h
        exact ⟨source, rest, hfirst.mp hsource, ih.mp hrest, rfl⟩
    · rintro ⟨source, rest, hsource, hrest, rfl⟩
      rw [hfirst.mpr hsource]
      exact map_eq_ok_iff.mpr ⟨rest, ih.mpr hrest, rfl⟩

theorem decode_of_decodeAll {i : Nat} (h : decodeAll batch used 0 fields = .ok sources)
    (hf : fields[i]? = some field) (hi : i ∈ used) :
    ∃ source, decode batch field = .ok source ∧ sources[i]? = some (some source) := by
  obtain ⟨hlength, hall⟩ := List.forall₂_iff_get.mp (decodeAll_eq_ok_iff.mp h)
  obtain ⟨hlt, rfl⟩ := List.getElem?_eq_some_iff.mp hf
  have hlt' : i < (fields.zipIdx).length := by simpa using hlt
  have hdecodes : Decodes batch used (fields[i], i) sources[i] := by
    simpa using hall i hlt' (hlength ▸ hlt')
  rw [Decodes, if_pos hi] at hdecodes
  obtain ⟨source, hsource, e⟩ := hdecodes
  exact ⟨source, hsource, by rw [e, List.getElem?_eq_getElem]⟩

theorem exists_decodeAll (h : ∀ field ∈ fields, ∃ source, decode batch field = .ok source) :
    ∃ sources, decodeAll batch used start fields = .ok sources := by
  simp only [decodeAll_eq_ok_iff]
  refine exists_forall₂_iff.mpr fun (field, i) hfield => ?_
  unfold Decodes
  split
  · obtain ⟨source, hsource⟩ := h field (List.fst_mem_of_mem_zipIdx hfield)
    exact ⟨some source, source, hsource, rfl⟩
  · exact ⟨none, rfl⟩

section Codes

variable {levels : List String} {column : Column} {row code : Nat} {label : String}

theorem getElem?_codes (hrow : row < column.size) :
    (codes levels column)[row]? = some ((column.label? row).bind (levels.idxOf? ·)) := by
  simp [codes, hrow]

theorem idxOf?_iff_getElem? (hnodup : levels.Nodup) :
    levels.idxOf? label = some code ↔ levels[code]? = some label := by
  constructor
  · intro h
    obtain ⟨hlt, hlabel, -⟩ := List.idxOf?_eq_some_iff.mp h
    rw [List.getElem?_eq_getElem hlt, hlabel]
  · intro h
    obtain ⟨hlt, rfl⟩ := List.getElem?_eq_some_iff.mp h
    refine List.idxOf?_eq_some_iff.mpr ⟨hlt, rfl, fun j hj he => ?_⟩
    exact Nat.ne_of_lt hj ((List.Nodup.getElem_inj_iff hnodup).mp he)

end Codes

end Source

namespace Evaluation

variable {e : Evaluation} {i row code : Nat} {levels : List String} {column : Column}

theorem code?_of_source? (h : e.source? i = some (.factor (Source.codes levels column)))
    (hrow : row < column.size) :
    e.code? row i = (column.label? row).bind (levels.idxOf? ·) := by
  simp [code?, h, Source.getElem?_codes hrow]

/-- A row has the code of a level exactly when this level is its label. -/
theorem code?_eq_some_iff (h : e.source? i = some (.factor (Source.codes levels column)))
    (hrow : row < column.size) (hnodup : levels.Nodup) :
    e.code? row i = some code ↔ ∃ label, column.label? row = some label ∧
      levels[code]? = some label := by
  rw [code?_of_source? h hrow, Option.bind_eq_some_iff]
  simp only [Source.idxOf?_iff_getElem? hnodup]

end Evaluation

namespace BoundFormula

variable {f : Formula} {s : Schema} {b : BoundFormula} {batch : Batch} {e : Evaluation}
  {p : TermPlan} {i : Nat} {field : Field}

/-- The plans that read from the batch; a released response may be there twice. -/
def readers (b : BoundFormula) : List TermPlan := b.response.toList ++ b.predictors

theorem mem_usedColumns : i ∈ b.usedColumns ↔ ∃ p ∈ b.readers, i ∈ p.kind.columns := by
  unfold usedColumns readers
  simp only [mem_ascending, List.mem_flatMap, TermPlan.sources]

theorem mem_readers_of_mem_plans (hp : p ∈ b.plans) : p ∈ b.readers := by
  rcases List.mem_append.mp hp with hp | hp
  · exact List.mem_append_left _ hp
  · exact List.mem_append_right _ (List.mem_of_mem_filter hp)

theorem input_of_bind (h : f.bind s = .ok b) : b.input = s := (Formula.bind_iff.mp h).2.1

/-- Without a released response, every plan brings outputs. -/
theorem plans_eq_readers (h : f.bind s = .ok b)
    (hr : ∀ t ∈ b.formula.responseTerm?, t ∉ b.formula.predictors) : b.plans = b.readers := by
  obtain ⟨-, -, hresponse, hpredictors, -⟩ := Formula.bind_iff.mp h
  have hplanned : List.Forall₂ (Term.Planned s) b.formula.responseTerm?.toList b.response.toList :=
    hresponse.imp fun _ _ h => (Formula.responsePlan_eq_ok_iff.mp h).2
  refine Formula.outputPlans_eq_append fun p hp hterm => ?_
  rw [Formula.map_term_response hplanned] at hterm
  obtain ⟨t, ht, hp⟩ := exists_mem_of_mem_right hpredictors hp
  rw [hp.term_eq] at hterm
  exact hr t hterm (List.mem_of_mem_filter ht)

theorem planned_of_mem_readers (h : f.bind s = .ok b) (hp : p ∈ b.readers) :
    Term.Planned s p.term p := by
  obtain ⟨-, -, hresponse, hpredictors, -⟩ := Formula.bind_iff.mp h
  have hplanned : List.Forall₂ (Term.Planned s) _ b.readers := List.rel_append
    (hresponse.imp fun _ _ h => (Formula.responsePlan_eq_ok_iff.mp h).2) hpredictors
  obtain ⟨t, ht⟩ := exists_forall₂_iff.mp ⟨_, hplanned.flip⟩ p hp
  rwa [ht.term_eq]

theorem planned_of_mem_predictors (h : f.bind s = .ok b) (hp : p ∈ b.predictors) :
    Term.Planned s p.term p :=
  planned_of_mem_readers h (List.mem_append_right _ hp)

theorem exists_category_of_mem_readers {levels : List String} (h : f.bind s = .ok b)
    (hp : p ∈ b.readers) (hk : p.kind = .categorical i levels) : ∃ field, i ∈ b.usedColumns ∧
      b.input.fields[i]? = some field ∧ field.type.levels? = some levels ∧
        p.outputs = [field] := by
  obtain ⟨field, hget, hlevels, houtputs⟩ := (planned_of_mem_readers h hp).field_of_category hk
  have hread : i ∈ p.kind.columns := hk ▸ List.mem_singleton_self i
  rw [← input_of_bind h] at hget
  exact ⟨field, mem_usedColumns.mpr ⟨p, hp, hread⟩, hget, hlevels, houtputs⟩

/-- Every plan brings outputs: a predictor that is left out is the response again. -/
theorem mem_plans_of_mem_readers (h : f.bind s = .ok b) (hp : p ∈ b.readers) : p ∈ b.plans := by
  rcases List.mem_append.mp hp with hresponse | hpredictor
  · exact List.mem_append_left _ hresponse
  · by_cases hterm : b.response.map TermPlan.term = some p.term
    · obtain ⟨q, hq, hqp⟩ := Option.map_eq_some_iff.mp hterm
      have hq' : q ∈ b.response.toList := Option.mem_toList.mpr hq
      have hplanned := planned_of_mem_readers h (List.mem_append_left _ hq')
      rw [hqp] at hplanned
      obtain rfl := hplanned.unique (planned_of_mem_readers h hp)
      exact List.mem_append_left _ hq'
    · exact List.mem_append_right _ (List.mem_filter.mpr ⟨hpredictor, decide_eq_true hterm⟩)

theorem exists_response_of_bind {t : Term} (h : f.bind s = .ok b) (ht : f.responseTerm? = some t) :
    ∃ p, b.response = some p ∧ Term.Planned s t p := by
  obtain ⟨hexpand, -, hresponse, -, -⟩ := Formula.bind_iff.mp h
  obtain ⟨hformula, -⟩ := Formula.expand_eq_ok_iff.mp hexpand
  have hsame : b.formula.responseTerm? = some t := by
    rw [← hformula]
    exact ht
  rw [hsame] at hresponse
  cases hr : b.response with
  | none =>
    rw [hr] at hresponse
    cases hresponse
  | some p =>
    rw [hr] at hresponse
    obtain ⟨hplan, -⟩ := List.forall₂_cons.mp hresponse
    exact ⟨p, rfl, (Formula.responsePlan_eq_ok_iff.mp hplan).2⟩

theorem planned_response_of_bind (h : f.bind s = .ok b) (hp : b.response = some p) :
    ∃ t, ((∃ name, t = .variable name) ∨ ∃ name arg, t = .function name arg) ∧
      Term.Planned s t p := by
  obtain ⟨-, -, hresponse, -, -⟩ := Formula.bind_iff.mp h
  have hplan := hresponse.flip
  rw [hp] at hplan
  obtain ⟨t, ht⟩ := exists_forall₂_iff.mp ⟨_, hplan⟩ p (List.mem_singleton_self p)
  exact ⟨t, Formula.responsePlan_eq_ok_iff.mp ht⟩

theorem evaluate_eq_ok_iff : b.evaluate batch = .ok e ↔ e.bound = b ∧ e.rows = batch.rows ∧
    Source.decodeAll batch b.usedColumns 0 b.input.fields = .ok e.sources := by
  unfold evaluate
  split
  · next h => simp [h]
  · next sources h =>
    rw [Except.ok.injEq]
    constructor
    · rintro rfl
      exact ⟨rfl, rfl, h⟩
    · rintro ⟨rfl, hrows, hsources⟩
      obtain rfl := Except.ok.inj (h.symm.trans hsources)
      cases e
      cases hrows
      rfl

theorem exists_evaluate (h : ∀ field ∈ b.input.fields, ∃ source,
    Source.decode batch field = .ok source) : ∃ e, b.evaluate batch = .ok e := by
  obtain ⟨sources, hsources⟩ :
      ∃ sources, Source.decodeAll batch b.usedColumns 0 b.input.fields = .ok sources :=
    Source.exists_decodeAll h
  exact ⟨⟨b, batch.rows, sources, Source.size_of_decodeAll hsources⟩,
    evaluate_eq_ok_iff.mpr ⟨rfl, rfl, hsources⟩⟩

/-- A used position leads to the column of its field in the batch. -/
theorem source?_of_evaluate (h : b.evaluate batch = .ok e) (hi : i ∈ b.usedColumns)
    (hf : b.input.fields[i]? = some field) : ∃ column, batch.column? field.name = some column ∧
      field.type.accepts column.storage = true ∧
        e.source? i = some (Source.ofColumn field.type column) := by
  obtain ⟨-, -, hall⟩ := evaluate_eq_ok_iff.mp h
  obtain ⟨source, hsource, hget⟩ := Source.decode_of_decodeAll hall hf hi
  obtain ⟨column, hcolumn, hfits, rfl⟩ := Source.decode_eq_ok_iff.mp hsource
  exact ⟨column, hcolumn, hfits, by rw [Evaluation.source?, hget]; rfl⟩

end BoundFormula

end ModelFormula
