import ModelFormula.Proofs.Interference

/-! # How labels are stored

A category is decoded to the codes of its labels, and nothing else of its column is read. Two
batches with the same labels therefore lead to the same sources and the same results, whether a
column holds them as texts or as keys into a dictionary, and whatever else the dictionary holds.
-/

namespace ModelFormula

/-- Two columns with the same label in every row, or none in both, where each is stored in one of
the ways in which categories are read. -/
structure Column.SameLabels (c c' : Column) : Prop where

  stored : ∀ levels, (DataType.categorical levels).StoredAs c.storage

  stored' : ∀ levels, (DataType.categorical levels).StoredAs c'.storage

  size : c.size = c'.size

  labels : ∀ row < c.size, c.label? row = c'.label? row

/-- A dictionary holds the same labels as the texts that its keys lead to: the order of its values,
those that repeat or are never used and the missing ones make no difference. -/
theorem Column.sameLabels_dictionary {key : IntegerKind} {keys : List (Option Nat)}
    {layout layout' : TextLayout} {values : Array (Option String)} (hlayout : layout ≠ .view)
    (hlayout' : layout' ≠ .view) : SameLabels (.dictionary key keys.toArray (.text layout values))
      (.text layout' (keys.map fun key => key.bind fun key => values[key]?.join).toArray) := by
  refine ⟨fun _ => .dictionary hlayout, fun _ => .labels hlayout', ?size, fun row hrow => ?labels⟩
  case size => simp [size]
  case labels =>
    have hkey : row < keys.length := hrow
    simp [label?, hkey]

/-- Two batches have the same column for a field or, for a category, columns with the same
labels. -/
inductive Batch.SameColumn (batch batch' : Batch) (field : Field) : Prop where

  | same : batch.column? field.name = batch'.column? field.name → SameColumn batch batch' field

  | labels {levels : List String} {c c' : Column} : field.type = .categorical levels →
      batch.column? field.name = some c → batch'.column? field.name = some c' →
      c.SameLabels c' → SameColumn batch batch' field

structure BoundFormula.SameLabels (b : BoundFormula) (batch batch' : Batch) : Prop where

  rows : batch.rows = batch'.rows

  columns : ∀ field ∈ b.sourceFields, batch.SameColumn batch' field

/-! ## Decoding -/

/-- The codes follow the declared levels: a row has the code of the level that is its label, and
none when it has no label or one that is not declared. -/
structure Column.CodedAs (c : Column) (levels : List String) (codes : Array (Option Nat)) : Prop
    where

  size : codes.size = c.size

  code : ∀ row < c.size, ∀ code, codes[row]? = some (some code) ↔
    ∃ label, c.label? row = some label ∧ levels[code]? = some label

  missing : ∀ row < c.size, codes[row]? = some none ↔
    c.label? row = none ∨ ∃ label, c.label? row = some label ∧ label ∉ levels

namespace Source

variable {batch batch' : Batch} {field : Field} {levels : List String} {c c' : Column}

theorem codedAs_codes (hnodup : levels.Nodup) : c.CodedAs levels (codes levels c) := by
  refine ⟨by simp [codes], fun row hrow code => ?code, fun row hrow => ?missing⟩
  case code =>
    rw [getElem?_codes hrow, Option.some_inj, Option.bind_eq_some_iff]
    simp only [idxOf?_iff_getElem? hnodup]
  case missing =>
    rw [getElem?_codes hrow, Option.some_inj]
    cases c.label? row with
    | none => simp
    | some label => simp [List.idxOf?_eq_none_iff]

theorem codes_congr (h : c.SameLabels c') : codes levels c = codes levels c' := by
  unfold codes
  rw [← h.size]
  refine Array.map_congr_left fun row hrow => ?_
  rw [h.labels row (Array.mem_range.mp hrow)]

theorem decode_congr (h : batch.SameColumn batch' field) :
    decode batch field = decode batch' field := by
  cases h with
  | same h => rw [decode, decode, h]
  | @labels levels c c' htype hc hc' hlabels =>
    have hfits : field.type.accepts c.storage = true :=
      DataType.accepts_iff.mpr (htype ▸ hlabels.stored levels)
    have hfits' : field.type.accepts c'.storage = true :=
      DataType.accepts_iff.mpr (htype ▸ hlabels.stored' levels)
    have hlevels : field.type.levels? = some levels := by rw [htype, DataType.levels?]
    simp only [decode, hc, hc', hfits, hfits', if_true]
    rw [ofColumn_of_levels? c hlevels, ofColumn_of_levels? c' hlevels, codes_congr hlabels]

theorem decodeAll_congr {used : List Nat} {start : Nat} {fields : List Field}
    (h : ∀ field ∈ readFields used start fields, decode batch field = decode batch' field) :
    decodeAll batch used start fields = decodeAll batch' used start fields := by
  induction fields generalizing start with
  | nil => rfl
  | cons field fields ih =>
    rw [readFields_cons, List.forall_mem_append] at h
    obtain ⟨hfirst, hrest⟩ := h
    rw [decodeAll, decodeAll, ih hrest]
    by_cases hused : start ∈ used
    · rw [hfirst field (by simp [hused])]
    · simp only [if_neg hused]

end Source

/-! ## Evaluating -/

namespace Evaluation

variable {f : Formula} {s : Schema} {b : BoundFormula} {batch : Batch} {e : Evaluation}
  {p : TermPlan} {i : Nat} {levels : List String}

/-- The results for a category hold these codes: the response as integers, the frame as keys into
the declared levels, and the design matrix as numbers in the encoding that keeps codes. -/
structure HasCodes (e : Evaluation) (p : TermPlan) (levels : List String)
    (codes : Array (Option Nat)) : Prop where

  response : e.bound.response = some p → e.y = .ok (.integer .i32 (codes.map (·.map Int.ofNat)))

  frame : ∀ field ∈ p.outputs, e.frame.column? field.name =
    some (.dictionary .i32 codes (.text .short (levels.map some).toArray))

  ordinal : ∀ before after field, e.bound.predictors = before ++ p :: after → field ∈ p.outputs →
    (e.x .ordinal).HasColumn ((e.bound.upTo before).designColumns .ordinal).length field.name
      (codes.toList.map fun code => (code.map Float.ofNat).getD missing)

theorem hasCodes_codes (hb : f.bind s = .ok e.bound) (hp : p ∈ e.bound.readers)
    (hk : p.kind = .categorical i levels) : e.HasCodes p levels (e.codes i) := by
  refine ⟨fun hr => ?response, fun field => column?_frame_category hb hp hk, ?ordinal⟩
  case response => simp only [y, hr, hk]
  case ordinal =>
    intro before after field h hfield
    obtain ⟨field', -, -, -, houtputs⟩ := e.bound.exists_category_of_mem_readers hb hp hk
    rw [houtputs, List.mem_singleton] at hfield
    subst hfield
    have hc : (DesignColumn.ofPlan .ordinal p)[0]? = some (field.name, .code i) := by
      simp [DesignColumn.ofPlan, DesignColumn.ofCategory, hk, houtputs]
    have hcells : (List.range e.rows).map (e.cell (.code i)) =
        (e.codes i).toList.map fun code => (code.map Float.ofNat).getD missing := by
      simp [codes, cell]
    rw [← hcells]
    exact hasColumn_x h hc

theorem exists_codedAs {field : Field} (he : b.evaluate batch = .ok e) (hi : i ∈ b.usedColumns)
    (hget : b.input.fields[i]? = some field) (hlevels : field.type.levels? = some levels) :
    ∃ column, batch.column? field.name = some column ∧ column.CodedAs levels (e.codes i) := by
  obtain ⟨column, hcolumn, -, hsource⟩ := b.source?_of_evaluate he hi hget
  rw [Source.ofColumn_of_levels? column hlevels] at hsource
  have hnodup := (b.input.levelsOk field (List.mem_of_getElem? hget) levels hlevels).2
  rw [codes_of_source? hsource]
  exact ⟨column, hcolumn, Source.codedAs_codes hnodup⟩

/-- The results for a category hold the codes of the labels in its own column. -/
theorem exists_hasCodes (hb : f.bind s = .ok b) (he : b.evaluate batch = .ok e)
    (hp : p ∈ b.readers) (hk : p.kind = .categorical i levels) : ∃ field column codes,
      b.input.fields[i]? = some field ∧ field.type = .categorical levels ∧
        batch.column? field.name = some column ∧ column.CodedAs levels codes ∧
          e.HasCodes p levels codes := by
  obtain ⟨field, hused, hget, hlevels, -⟩ := b.exists_category_of_mem_readers hb hp hk
  obtain ⟨column, hcolumn, hcoded⟩ := exists_codedAs he hused hget hlevels
  obtain ⟨rfl, -, -⟩ := BoundFormula.evaluate_eq_ok_iff.mp he
  exact ⟨field, column, e.codes i, hget, DataType.eq_categorical_of_levels? hlevels, hcolumn,
    hcoded, hasCodes_codes hb hp hk⟩

end Evaluation

namespace BoundFormula

variable {f : Formula} {s : Schema} {b : BoundFormula} {batch batch' : Batch}

theorem evaluate_congr (hb : f.bind s = .ok b) (h : b.SameLabels batch batch') :
    b.evaluate batch = b.evaluate batch' := by
  have hsources : Source.decodeAll batch b.usedColumns 0 b.input.fields =
      Source.decodeAll batch' b.usedColumns 0 b.input.fields := by
    refine Source.decodeAll_congr fun field hfield => Source.decode_congr (h.columns field ?_)
    rwa [input_of_bind hb, readFields_eq_filter hb, ← sourceFields_eq_filter hb] at hfield
  cases he : b.evaluate batch' with
  | error error =>
    rw [evaluate_eq_error_iff] at he ⊢
    rwa [hsources]
  | ok e =>
    rw [evaluate_eq_ok_iff] at he ⊢
    rwa [hsources, h.rows]

/-- A batch is refused for the same reason as another, or both give the same results, in which the
codes follow the declared levels. Columns with labels are never refused. -/
structure IgnoresStorage (b : BoundFormula) (batch batch' : Batch) : Prop where

  refused : ∀ error, b.evaluate batch = .error error ↔ b.evaluate batch' = .error error

  succeeds : (∀ field ∈ b.sourceFields,
    batch.column? field.name = batch'.column? field.name → batch.Fits field) →
      ∃ e e', b.evaluate batch = .ok e ∧ b.evaluate batch' = .ok e'

  results : ∀ e e', b.evaluate batch = .ok e → b.evaluate batch' = .ok e' →
    Evaluation.SameResults e e'

  decoded : ∀ e, b.evaluate batch = .ok e → ∀ i ∈ b.usedColumns, ∀ field levels,
    b.input.fields[i]? = some field → field.type = .categorical levels →
      ∃ column, batch.column? field.name = some column ∧ column.CodedAs levels (e.codes i)

  codes : ∀ e, b.evaluate batch = .ok e → ∀ p ∈ b.readers, ∀ i levels,
    p.kind = .categorical i levels → ∃ field column codes, b.input.fields[i]? = some field ∧
      field.type = .categorical levels ∧ batch.column? field.name = some column ∧
        column.CodedAs levels codes ∧ e.HasCodes p levels codes

/-- The results do not depend on how labels are stored. -/
theorem evaluate_ignoresStorage (hb : f.bind s = .ok b) (h : b.SameLabels batch batch') :
    b.IgnoresStorage batch batch' := by
  have hsame := evaluate_congr hb h
  refine ⟨fun error => by rw [hsame], fun hfits => ?succeeds, ?results, ?decoded, ?codes⟩
  case succeeds =>
    have hall : ∀ field ∈ b.sourceFields, batch.Fits field := by
      intro field hfield
      cases h.columns field hfield with
      | same hcolumn => exact hfits field hfield hcolumn
      | @labels levels c c' htype hc hc' hlabels => exact ⟨c, hc, htype ▸ hlabels.stored levels⟩
    obtain ⟨e, he⟩ := (exists_evaluate_iff hb).mpr hall
    exact ⟨e, e, he, hsame ▸ he⟩
  case results =>
    intro e e' he he'
    obtain rfl : e = e' := Except.ok.inj (he.symm.trans (hsame.trans he'))
    exact ⟨rfl, fun _ => rfl, rfl, rfl⟩
  case decoded =>
    intro e he i hi field levels hget htype
    exact Evaluation.exists_codedAs he hi hget (by rw [htype, DataType.levels?])
  case codes => exact fun e he p hp i levels => Evaluation.exists_hasCodes hb he hp

/-- For `g ~ a::h` the labels of `g` are texts in one batch, and in the other they are in a
dictionary that has another order than the declared levels, a value twice, one that is not used and
one that is missing; those of `h` are in a dictionary in both, with keys of different widths. -/
theorem evaluate_ignoresStorage_dictionary : ∃ (f : Formula) (s : Schema) (b : BoundFormula)
    (batch batch' : Batch) (e : Evaluation),
      f.responseTerm? = some (.variable "g") ∧
      f.predictors = [.interaction [.variable "a", .variable "h"]] ∧
      s.fields = [⟨"a", .f64⟩, ⟨"g", .categorical ["u", "v"]⟩, ⟨"h", .categorical ["p", "q"]⟩] ∧
      batch.columns = [("a", .float64 #[some 1, none, some 3]),
        ("g", .dictionary .u8 #[some 3, some 1, some 0]
          (.text .long #[some "v", none, some "w", some "v"])),
        ("h", .dictionary .i64 #[some 0, none, some 1] (.text .short #[some "q", some "p"]))] ∧
      batch'.columns = [("a", .float64 #[some 1, none, some 3]),
        ("g", .text .short #[some "v", none, some "v"]),
        ("h", .dictionary .i8 #[some 1, none, some 0] (.text .short #[some "p", some "q"]))] ∧
      f.bind s = .ok b ∧ b.SameLabels batch batch' ∧ b.evaluate batch = .ok e ∧
      e.y = .ok (.integer .i32 #[some 1, none, some 1]) ∧
      e.codes 2 = #[some 1, none, some 0] ∧
      b.IgnoresStorage batch batch' := by
  refine ⟨⟨some ⟨.variable "g", false⟩, _, ?distinct⟩, ⟨_, ?names, ?levels⟩, ?b, ⟨3, _, ?size⟩,
    ⟨3, _, ?size'⟩, ?e, rfl, rfl, rfl, rfl, rfl, ?bind, ?same, ?evaluate, ?y, ?codes,
    evaluate_ignoresStorage ?bind ?same⟩
  case distinct => decide
  case names => decide
  case levels => simp [DataType.LevelsOk, DataType.levels?]
  case size => decide
  case size' => decide
  case bind => rfl
  case evaluate => rfl
  case y => cbv
  case codes => cbv
  case same =>
    refine ⟨rfl, fun field hfield => ?_⟩
    have hfield : field ∈ [⟨"a", .f64⟩, ⟨"g", .categorical ["u", "v"]⟩,
        ⟨"h", .categorical ["p", "q"]⟩] := hfield
    simp only [List.mem_cons, List.not_mem_nil, or_false] at hfield
    rcases hfield with rfl | rfl | rfl
    · exact .same rfl
    · have hlong : TextLayout.long ≠ .view := by decide
      have hshort : TextLayout.short ≠ .view := by decide
      exact .labels rfl rfl rfl (Column.sameLabels_dictionary hlong hshort)
    · refine .labels rfl rfl rfl ⟨fun _ => .dictionary ?_, fun _ => .dictionary ?_, rfl, ?_⟩
      all_goals decide

end BoundFormula

end ModelFormula
