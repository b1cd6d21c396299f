import ModelFormula.Proofs.Commands
import ModelFormula.Proofs.DesignShape
import ModelFormula.Proofs.TypeText

/-! # Printed names

The command line as a whole: `columns` fails where `schema` fails, and else prints the names that
the design matrices have on all batches. Declared names and levels are trimmed, so that no name ends
with a line break and the text is ended by a single one.
-/

namespace ModelFormula

variable {s : Schema} {f : Formula} {b : BoundFormula} {t : Term} {p : TermPlan}

/-! ## Names that end visibly -/

theorem Text.endsVisibly_of_trimmed {cs : List Char} (h : cs ≠ []) (htrim : Text.trim cs = cs) :
    EndsVisibly cs := by
  rw [← htrim] at h ⊢
  have hne : (Text.trimStart cs).reverse.dropWhile Text.isBlank ≠ [] := by
    simpa [Text.trim, Text.trimEnd, Text.trimStart] using h
  obtain ⟨c, ds, hcs⟩ := List.exists_cons_of_ne_nil hne
  have hblank : Text.isBlank c = false := by simpa [hcs] using List.head_dropWhile_not _ hne
  refine ⟨ds.reverse, c, ?_, ?_⟩
  · rw [Text.trim, Text.trimEnd, Text.trimStart, hcs, List.reverse_cons]
  · rintro rfl
    exact absurd hblank (by decide)

structure Field.IsVisible (field : Field) : Prop where

  name : EndsVisibly field.name.toList

  level : ∀ levels, field.type.levels? = some levels → ∀ level ∈ levels, EndsVisibly level.toList

theorem DataType.IsLevel.endsVisibly {level : String} (h : IsLevel level) :
    EndsVisibly level.toList :=
  Text.endsVisibly_of_trimmed (by simpa using h.ne_empty) h.trimmed

theorem Field.isVisible_of_declaration {declaration : String} {field : Field}
    (h : ofDeclaration declaration = .ok field) : field.IsVisible := by
  have hdeclared := isDeclared_of_ofDeclaration h
  constructor
  · exact Text.endsVisibly_of_trimmed (by simpa using hdeclared.ne_empty) hdeclared.trimmed
  · exact fun levels hlevels level hlevel =>
      (hdeclared.hasLevelText levels hlevels level hlevel).endsVisibly

theorem endsVisibly_joined {mark : String} {parts : List String} (hne : parts ≠ [])
    (h : ∀ part ∈ parts, EndsVisibly part.toList) :
    EndsVisibly (String.intercalate mark parts).toList := by
  rw [String.toList_intercalate]
  exact endsVisibly_intercalate (by simpa using hne) (List.forall_mem_map.mpr h)

theorem Encoding.endsVisibly_columnNames (encoding : Encoding) {name : String}
    {levels : List String} (hname : EndsVisibly name.toList)
    (hlevels : ∀ level ∈ levels, EndsVisibly level.toList) :
    ∀ n ∈ encoding.columnNames name levels, EndsVisibly n.toList := by
  have hindicator : ∀ level ∈ levels, EndsVisibly (name ++ "_" ++ level).toList := by
    intro level hlevel
    rw [String.toList_append]
    exact (hlevels level hlevel).prepend _
  cases encoding with
  | ordinal => exact List.forall_mem_singleton.mpr hname
  | oneHot => exact List.forall_mem_map.mpr hindicator
  | dummy => exact List.forall_mem_map.mpr fun level hlevel =>
      hindicator level (List.mem_of_mem_tail hlevel)

namespace Term

theorem endsVisibly_function (name : String) (arg : Term) :
    EndsVisibly (label (.function name arg)).toList := by
  rw [label, String.toList_ofList, charsWith]
  exact (endsVisibly_singleton (by decide)).prepend _

theorem IsNumeric.endsVisibly_label (h : IsNumeric s t) (hs : ∀ field ∈ s.fields, field.IsVisible) :
    EndsVisibly t.label.toList := by
  induction h with
  | column hf =>
    rw [label_variable]
    exact (hs _ hf).name
  | function => exact endsVisibly_function _ _
  | @interaction terms hl _ ih =>
    have hne : terms.map label ≠ [] := by
      rintro hnil
      rw [List.map_eq_nil_iff.mp hnil] at hl
      exact absurd hl (by decide)
    rw [← intercalate_map_label]
    exact endsVisibly_joined hne (List.forall_mem_map.mpr ih)

theorem PlannedOperand.endsVisibly_spellings {o : Operand} (h : PlannedOperand s t o)
    (hs : ∀ field ∈ s.fields, field.IsVisible) :
    ∀ part ∈ spellings s t, EndsVisibly part.toList := by
  cases h with
  | @factor i field levels hget hlevels =>
    have hf := hs field (List.mem_of_getElem? hget)
    rw [spellings_of_factor (List.mem_of_getElem? hget) hlevels]
    exact Encoding.oneHot.endsVisibly_columnNames hf.name (hf.level levels hlevels)
  | number he =>
    rw [spellings_of_number he]
    exact List.forall_mem_singleton.mpr
      ((exists_numericExpr_iff.mp ⟨_, he⟩).endsVisibly_label hs)

theorem exists_mem_of_mem_choices {α : Type} {xss : List (List α)} {xs : List α} {x : α}
    (h : xs ∈ choices xss) (hx : x ∈ xs) : ∃ ys ∈ xss, x ∈ ys := by
  induction xss generalizing xs with
  | nil =>
    rw [List.mem_singleton.mp h] at hx
    cases hx
  | cons ys xss ih =>
    obtain ⟨y, hy, hxs⟩ := List.mem_flatMap.mp h
    obtain ⟨rest, hrest, rfl⟩ := List.mem_map.mp hxs
    rcases List.mem_cons.mp hx with rfl | hx
    · exact ⟨ys, List.mem_cons_self, hy⟩
    · obtain ⟨zs, hzs, hmem⟩ := ih hrest hx
      exact ⟨zs, List.mem_cons_of_mem _ hzs, hmem⟩

theorem Planned.endsVisibly_columnNames (h : Planned s t p)
    (hs : ∀ field ∈ s.fields, field.IsVisible) (encoding : Encoding) :
    ∀ name ∈ p.columnNames encoding, EndsVisibly name.toList := by
  cases h with
  | number hget => exact List.forall_mem_singleton.mpr (hs _ (List.mem_of_getElem? hget)).name
  | @category i field levels hget hlevels =>
    have hf := hs field (List.mem_of_getElem? hget)
    have hnames : TermPlan.columnNames encoding
        ⟨.variable field.name, .categorical i levels, [field]⟩ =
          encoding.columnNames field.name levels := List.append_nil _
    rw [hnames]
    exact encoding.endsVisibly_columnNames hf.name (hf.level levels hlevels)
  | function => exact List.forall_mem_singleton.mpr (endsVisibly_function _ _)
  | @interaction terms operands hl hoperands =>
    rw [columnNames_interactionPlan, names_interactionPlan hoperands]
    refine List.forall_mem_map.mpr fun parts hparts => ?_
    have hlength := length_of_mem_choices hparts
    refine endsVisibly_joined ?_ fun part hpart => ?_
    · rintro rfl
      rw [List.length_map] at hlength
      exact absurd (hlength ▸ hl) (by decide)
    · obtain ⟨ys, hys, hmem⟩ := exists_mem_of_mem_choices hparts hpart
      obtain ⟨u, hu, rfl⟩ := List.mem_map.mp hys
      obtain ⟨o, -, ho⟩ := exists_mem_of_mem_left hoperands hu
      exact ho.endsVisibly_spellings hs part hmem

end Term

theorem BoundFormula.endsVisibly_columnNames (hb : f.bind s = .ok b)
    (hs : ∀ field ∈ s.fields, field.IsVisible) (encoding : Encoding) :
    ∀ name ∈ b.columnNames encoding, EndsVisibly name.toList := by
  refine List.forall_mem_append.mpr ⟨?_, List.forall_mem_flatMap.mpr fun p hp => ?_⟩
  · split
    · exact List.forall_mem_singleton.mpr ⟨"Intercep".toList, 't', by decide, by decide⟩
    · exact nofun
  · exact (b.planned_of_mem_predictors hb hp).endsVisibly_columnNames hs encoding

/-! ## The reports -/

variable {command command' : Command} {declarations : List String} {text : String}

theorem runOn_columns_of_error {e : ModelError} (h : Command.schema.runOn s text = .error e)
    (encoding : Encoding) : (Command.columns encoding).runOn s text = .error e := by
  unfold Command.runOn at h ⊢
  rcases bind_eq_error_iff.mp h with hmodel | ⟨model, -, hrest⟩
  · exact bind_eq_error_iff.mpr (.inl hmodel)
  · cases hrest

theorem run_of_error {fields : List Field} {e : CommandError}
    (hrun : ∀ s e, command.runOn s text = .error e → command'.runOn s text = .error e)
    (h : command.run fields text = .error e) : command'.run fields text = .error e := by
  unfold Command.run at h ⊢
  cases hs : Schema.ofFields fields with
  | error fault =>
    rw [hs] at h
    exact h
  | ok s =>
    cases hfinding : command.runOn s text with
    | error fault =>
      simp only [hs, hfinding] at h
      simp only [hrun s fault hfinding]
      exact h
    | ok finding => simp [hs, hfinding, Except.mapError] at h

namespace Report

theorem ended_lines {lines : List String} (h : ∀ line ∈ lines, EndsVisibly line.toList) :
    ended (String.intercalate "\n" lines) = String.intercalate "\n" lines ++ "\n" := by
  cases lines with
  | nil => rfl
  | cons line lines => exact ended_of_endsVisibly (endsVisibly_joined (List.cons_ne_nil _ _) h)

/-- A command that fails on every schema where another fails has the report of its failure. -/
theorem ofArguments_of_failure
    (hrun : ∀ s e, command.runOn s text = .error e → command'.runOn s text = .error e)
    (h : (ofArguments (command.arguments declarations text)).code ≠ 0) :
    ofArguments (command'.arguments declarations text) =
      ofArguments (command.arguments declarations text) := by
  unfold ofArguments at h ⊢
  rw [ofArguments_arguments] at h ⊢
  rw [ofArguments_arguments]
  cases hfields : declarations.mapM declared with
  | error e => rfl
  | ok fields =>
    by_cases hne : fields = []
    · simp [hne, Bind.bind, Except.bind]
    · simp only [hfields, hne, Bind.bind, Except.bind, if_false] at h ⊢
      cases hfinding : command.run fields text with
      | error e => rw [run_of_error hrun hfinding]
      | ok finding => simp [hfinding, ofFinding] at h

theorem isVisible_of_declares {fields : List Field} (hd : Declares declarations fields)
    (hs : Schema.ofFields fields = .ok s) : ∀ field ∈ s.fields, field.IsVisible := by
  intro field hfield
  rw [Schema.ofFields_eq_ok_iff.mp hs] at hfield
  obtain ⟨declaration, -, hdeclared⟩ := exists_mem_of_mem_right hd hfield
  exact Field.isVisible_of_declaration hdeclared

/-- What `columns` prints where `schema` fails, which is the same failure, and where it does not,
which are the names that binding has fixed, one in a line. -/
inductive ColumnsShown (declarations : List String) (text : String) (encoding : Encoding) : Prop

  | refused : (ofArguments (Command.schema.arguments declarations text)).code ≠ 0 →
      ofArguments ((Command.columns encoding).arguments declarations text) =
        ofArguments (Command.schema.arguments declarations text) →
      ColumnsShown declarations text encoding

  | printed {fields : List Field} {s : Schema} {f : Formula} {b : BoundFormula} :
      (ofArguments (Command.schema.arguments declarations text)).code = 0 →
      Declares declarations fields → Schema.ofFields fields = .ok s →
      Formula.parse text = .ok f → f.bind s = .ok b →
      ofArguments ((Command.columns encoding).arguments declarations text) =
        { stdout := String.intercalate "\n" (b.columnNames encoding) ++ "\n" } →
      ColumnsShown declarations text encoding

theorem columnsShown (declarations : List String) (text : String) (encoding : Encoding) :
    ColumnsShown declarations text encoding := by
  by_cases h : (ofArguments (Command.schema.arguments declarations text)).code = 0
  · obtain ⟨fields, s, finding, hd, hne, hs, hfinding⟩ := exists_finding_of_code h
    obtain ⟨f, b, hp, hb⟩ := exists_bind_of_runOn_schema hfinding
    obtain ⟨e, he⟩ := exists_evaluate_emptyOf hb
    have hvisible := b.endsVisibly_columnNames hb (isVisible_of_declares hd hs) encoding
    refine .printed h hd hs hp hb ?_
    rw [ofArguments_of_finding hd hne hs (runOn_columns hp hb he), Evaluation.names_x_of_bind hb he,
      ended_lines hvisible]
    rfl
  · exact .refused h (ofArguments_of_failure (fun _ _ he => runOn_columns_of_error he encoding) h)

/-- The shape of a design matrix is fixed once a formula is bound, so that all batches give the same
names, and these are what the command line prints. -/
theorem hasShape_and_columnsShown :
    (∀ {f : Formula} {s : Schema} {b : BoundFormula}, f.bind s = .ok b →
      ∀ {batch : Batch} {e : Evaluation}, b.evaluate batch = .ok e → ∀ encoding : Encoding,
        HasShape b batch.rows encoding (e.x encoding) ∧
          ∀ (batch' : Batch) (e' : Evaluation), b.evaluate batch' = .ok e' →
            (e'.x encoding).names = (e.x encoding).names) ∧
    ∀ (declarations : List String) (text : String) (encoding : Encoding),
      ColumnsShown declarations text encoding := by
  refine ⟨?_, columnsShown⟩
  intro f s b hb batch e he encoding
  refine ⟨Evaluation.hasShape_x hb he encoding, fun batch' e' he' => ?_⟩
  rw [Evaluation.names_x_of_bind hb he', Evaluation.names_x_of_bind hb he]

/-- The names for `~ g + x::g + h + 1`, where the intercept is written last, and `h` has a single
level and so no dummies. -/
theorem hasShape_and_columnsShown_one_level :
    (∃ (f : Formula) (s : Schema) (batch : Batch) (b : BoundFormula) (e : Evaluation),
      f.predictors = [.variable "g", .interaction [.variable "x", .variable "g"], .variable "h",
        .intercept] ∧
      s.fields = [⟨"x", .f64⟩, ⟨"g", .categorical ["u", "v"]⟩, ⟨"h", .categorical ["p"]⟩] ∧
      batch.columns = [("g", .text .short #[some "v", none]), ("x", .float64 #[some 2, some 3]),
        ("h", .text .short #[some "p", some "q"])] ∧
      f.bind s = .ok b ∧ b.evaluate batch = .ok e ∧
      b.columnNames .dummy = ["Intercept", "g_v", "x::g_u", "x::g_v"] ∧
      HasShape b batch.rows .dummy (e.x .dummy)) ∧
    ∃ (declarations : List String) (text : String),
      declarations = ["x:f64", "g:categorical[u, v]", "h:categorical[p]"] ∧
      text = "~ g + x::g + h + 1" ∧
      (ofArguments (Command.schema.arguments declarations text)).code = 0 ∧
      ColumnsShown declarations text .dummy := by
  refine ⟨?_, _, _, rfl, rfl, by decide +kernel, hasShape_and_columnsShown.2 _ _ .dummy⟩
  refine ⟨⟨none, _, ?distinct⟩, ⟨_, ?names, ?levels⟩, ⟨2, _, ?size⟩, ?b, ?e, rfl, rfl, rfl, ?bind,
    ?evaluate, ?columns, (hasShape_and_columnsShown.1 ?bind ?evaluate .dummy).1⟩
  case distinct => decide
  case names => decide
  case levels => simp [DataType.LevelsOk, DataType.levels?]
  case size => decide
  case bind => rfl
  case evaluate => rfl
  case columns => rfl

end Report

end ModelFormula
