import ModelFormula.Proofs.FieldPlans
import ModelFormula.Proofs.Frame

/-! # The columns of a model frame

A plan either passes on a column or computes columns of numbers. Every column of the frame is
stored as the type of its field asks, so it can be decoded, and what is passed on is decoded to
the source that it came from.
-/

namespace ModelFormula

namespace Source

variable {levels : List String} {column : Column} {code : Nat}

theorem lt_of_mem_codes (h : some code ∈ codes levels column) : code < levels.length := by
  obtain ⟨row, -, hrow⟩ := Array.mem_map.mp h
  obtain ⟨label, -, hlabel⟩ := Option.bind_eq_some_iff.mp hrow
  obtain ⟨hlt, -⟩ := List.idxOf?_eq_some_iff.mp hlabel
  exact hlt

/-- Codes that are stored as keys into their levels are read back. -/
theorem codes_dictionary {keys : Array (Option Nat)} (hnodup : levels.Nodup)
    (hkeys : ∀ code, some code ∈ keys → code < levels.length) :
    codes levels (.dictionary .i32 keys (.text .short (levels.map some).toArray)) = keys := by
  refine Array.ext (by simp [codes, Column.size]) fun row hrow hkey => ?_
  simp only [codes, Array.getElem_map, Array.getElem_range]
  cases hcode : keys[row] with
  | none => simp [Column.label?, hkey, hcode]
  | some code =>
    have hlt : code < levels.length := hkeys code (hcode ▸ Array.getElem_mem hkey)
    have hfound : levels.idxOf? levels[code] = some code :=
      (idxOf?_iff_getElem? hnodup).mpr (List.getElem?_eq_getElem hlt)
    simp [Column.label?, hkey, hcode, hlt, hfound]

end Source

namespace TermPlan

/-- A plan that computes these columns: they are its outputs, its columns of the design matrix and
its columns of the frame. -/
structure Computes (p : TermPlan) (columns : List (String × DesignColumn)) : Prop where
  outputs : p.outputs = columns.map fun c => Term.computed c.1
  design : ∀ encoding, DesignColumn.ofPlan encoding p = columns
  frame : ∀ e : Evaluation, e.outputColumns p = columns.map fun c => e.computed c.2

end TermPlan

namespace Term

variable {s : Schema} {t : Term} {p : TermPlan} {x : Expr}

theorem computes_interactionPlan {terms : List Term} {operands : List Operand}
    (h : allNumeric? operands = none) : (interactionPlan terms operands).Computes
      ((Operand.combinations operands).map fun codes =>
        (outputName terms operands codes, .interaction operands codes)) := by
  rw [interactionPlan, h]
  constructor
  · simp
  · intro encoding
    simp [DesignColumn.ofPlan, List.zip_map', computed]
  · intro e
    simp [Evaluation.outputColumns]

/-- A plan passes on a field of the schema or computes columns. -/
theorem Planned.passes_or_computes (h : Planned s t p) :
    (∃ i, ∃ field : Field, s.fields[i]? = some field ∧ field.type ≠ .string ∧ p = field.plan i) ∨
      ∃ columns, p.Computes columns := by
  cases h with
  | @number i field hget htype hlevels =>
    refine .inl ⟨i, field, hget, htype, ?_⟩
    rw [Field.plan, hlevels]
  | @category i field levels hget hlevels =>
    refine .inl ⟨i, field, hget, ne_string_of_levels? hlevels, ?_⟩
    rw [Field.plan, hlevels]
  | @function name arg x hx =>
    obtain ⟨f, -, x, -, rfl⟩ := numericExpr_function_eq_ok_iff.mp hx
    right
    exact ⟨[(label (.function name arg), .numeric (.apply f x))], rfl, fun _ => rfl, fun _ => rfl⟩
  | @interaction terms operands hl hoperands =>
    right
    cases hnumbers : allNumeric? operands with
    | some xs =>
      rw [interactionPlan, hnumbers]
      exact ⟨[(label (.interaction terms), .numeric (.product xs))], rfl, fun _ => rfl,
        fun _ => rfl⟩
    | none => exact ⟨_, computes_interactionPlan hnumbers⟩

end Term

namespace Evaluation

variable {e : Evaluation} {p : TermPlan} {field : Field} {i : Nat} {source : Source}
  {column : Column} {columns : List (String × DesignColumn)}

theorem slots_of_computes (h : p.Computes columns) :
    e.slots p = columns.map fun c => (Term.computed c.1, e.computed c.2) := by
  rw [slots, h.outputs, h.frame, List.zip_map']

theorem size_of_source? (h : e.source? i = some source) : source.size = e.rows :=
  e.size_eq source (List.mem_of_getElem? (Option.join_eq_some_iff.mp h))

theorem codes_of_source? {keys : Array (Option Nat)} (h : e.source? i = some (.factor keys)) :
    e.codes i = keys := by
  have hsize : keys.size = e.rows := size_of_source? h
  refine Array.ext (by simp [hsize]) fun row hrow hkey => ?_
  simp [codes, code?, h, hkey]

/-- A field that is passed on has one column, from which its source is decoded again. -/
theorem exists_slot_plan (hlevels : field.type.LevelsOk)
    (hsource : e.source? i = some (.ofColumn field.type column))
    (hfits : field.type.accepts column.storage = true) : ∃ kept,
      e.slots (field.plan i) = [(field, kept)] ∧ field.type.accepts kept.storage = true ∧
        e.source? i = some (.ofColumn field.type kept) := by
  cases h : field.type.levels? with
  | none =>
    refine ⟨column, ?_, hfits, hsource⟩
    rw [Source.ofColumn_of_number column h] at hsource
    simp [slots, Field.plan, outputColumns, passed, h, hsource]
  | some levels =>
    have hcodes := hsource
    rw [Source.ofColumn_of_levels? column h] at hcodes
    refine ⟨.dictionary .i32 (e.codes i) (.text .short (levels.map some).toArray), ?_, ?_, ?_⟩
    · simp [slots, Field.plan, outputColumns, h]
    · simp [DataType.accepts, DataType.isCategorical, h, Column.storage, StorageType.isLabel]
    · rw [Source.ofColumn_of_levels? _ h, codes_of_source? hcodes,
        Source.codes_dictionary (hlevels levels h).2 fun code => Source.lt_of_mem_codes, hcodes]

/-- How a plan comes into the frame: as one field with its column, or as computed columns. -/
inductive Materializes (e : Evaluation) : TermPlan → Prop where

  | passed {i : Nat} {field : Field} {column : Column} : field.type ≠ .string →
      field.type.accepts column.storage = true →
      e.source? i = some (.ofColumn field.type column) →
      e.slots (field.plan i) = [(field, column)] → Materializes e (field.plan i)

  | computed {p : TermPlan} {columns : List (String × DesignColumn)} : p.Computes columns →
      Materializes e p

theorem Materializes.of_evaluate {f : Formula} {s : Schema} {b : BoundFormula} {batch : Batch}
    (hb : f.bind s = .ok b) (he : b.evaluate batch = .ok e) (hp : p ∈ b.readers) :
    e.Materializes p := by
  rcases (b.planned_of_mem_readers hb hp).passes_or_computes with
    ⟨i, field, hget, htype, rfl⟩ | ⟨columns, h⟩
  · have hused : i ∈ b.usedColumns :=
      BoundFormula.mem_usedColumns.mpr ⟨_, hp, by simp [Field.columns_plan]⟩
    obtain ⟨column, -, hfits, hsource⟩ :=
      b.source?_of_evaluate he hused (by rwa [b.input_of_bind hb])
    obtain ⟨kept, hslots, hkept, hsource⟩ :=
      exists_slot_plan (s.levelsOk field (List.mem_of_getElem? hget)) hsource hfits
    exact .passed htype hkept hsource hslots
  · exact .computed h

theorem Materializes.fits (h : e.Materializes p) {slot : Field × Column} (hm : slot ∈ e.slots p) :
    slot.1.type ≠ .string ∧ slot.1.type.accepts slot.2.storage = true := by
  cases h with
  | passed htype hfits _ hslots =>
    rw [hslots, List.mem_singleton] at hm
    subst hm
    exact ⟨htype, hfits⟩
  | computed h =>
    rw [slots_of_computes h] at hm
    obtain ⟨c, -, rfl⟩ := List.mem_map.mp hm
    exact ⟨DataType.noConfusion, rfl⟩

theorem Materializes.length_slots (h : e.Materializes p) :
    (e.slots p).length = p.outputs.length := by
  cases h with
  | passed _ _ _ hslots => rw [hslots]; rfl
  | computed h => rw [slots_of_computes h, h.outputs, List.length_map, List.length_map]

end Evaluation

end ModelFormula
