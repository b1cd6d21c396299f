import ModelFormula.CommandLine.Report
import ModelFormula.Proofs.Expansion
import ModelFormula.Proofs.Frame

/-! # The printed expansion

The command line as a whole: what `expand` prints is a formula for which all commands print the same
as for the formula that was expanded.
-/

namespace ModelFormula

/-! ## Reading arguments -/

def Command.words : Command → List String
  | expand => ["expand"]
  | schema => ["schema"]
  | columns encoding => ["columns", "--encoding=" ++ encoding.name]

def Command.arguments (command : Command) (declarations : List String) (text : String) :
    List String :=
  command.words ++ (declarations.map ("--field=" ++ ·) ++ ["--", text])

def Declares : List String → List Field → Prop :=
  List.Forall₂ fun declaration field => Field.ofDeclaration declaration = .ok field

variable {command : Command} {declarations : List String} {text : String} {fields : List Field}
  {kinds : List OptionKind} {r : Request}

theorem argument_field (declaration : String) :
    Argument.ofString (.field :: kinds) ("--field=" ++ declaration) =
      .option .field (some declaration) := by
  have hchars : ("--field=" ++ declaration).toList =
      '-' :: '-' :: 'f' :: 'i' :: 'e' :: 'l' :: 'd' :: '=' :: declaration.toList := by
    rw [String.toList_append]
    rfl
  unfold Argument.ofString
  rw [hchars]
  simp [OptionKind.ofLong?, OptionKind.long, List.isPrefixOf?]

theorem name_ne_of_declaration {declaration : String} {field : Field}
    (h : Field.ofDeclaration declaration = .ok field) : field.name ≠ "" := by
  unfold Field.ofDeclaration at h
  split at h
  · cases h
  · split at h
    · cases h
    · next hne =>
      split at h
      · cases h
      · cases h
        simpa using hne

theorem read_text (hr : r.formula = none) :
    Request.read kinds r ["--", text] = .ok { r with formula := some text } := by
  rw [Request.read]
  simp [Request.setFormula, hr]

theorem ne_of_field (declaration : String) : "--field=" ++ declaration ≠ "--" := by
  intro h
  have hchars := congrArg String.toList h
  rw [String.toList_append] at hchars
  cases hchars

theorem read_option {arguments : List String} {argument value : String} {kind : OptionKind}
    (hne : argument ≠ "--") (h : Argument.ofString kinds argument = .option kind (some value)) :
    Request.read kinds r (argument :: arguments) =
      (r.set kind value).bind fun r => Request.read kinds r arguments := by
  rw [Request.read]
  · rfl
  · exact hne
  · exact h

/-- The field of a declaration among the arguments. -/
def declared (declaration : String) : Except UsageError Field :=
  (Field.ofDeclaration declaration).mapError (.badField declaration)

theorem mapM_declared_eq_ok_iff : declarations.mapM declared = .ok fields ↔
    Declares declarations fields := by
  simp only [mapM_eq_ok_iff, declared, mapError_eq_ok_iff, Declares]

theorem set_field (declaration : String) : r.set .field declaration =
    (declared declaration).map fun field => { r with fields := r.fields ++ [field] } := by
  unfold Request.set declared
  cases Field.ofDeclaration declaration with
  | error e => rfl
  | ok field => rfl

theorem read_declarations (hr : r.formula = none) :
    Request.read (.field :: kinds) r (declarations.map ("--field=" ++ ·) ++ ["--", text]) =
      (declarations.mapM declared).map fun fields =>
        { r with fields := r.fields ++ fields, formula := some text } := by
  induction declarations generalizing r with
  | nil =>
    rw [List.map_nil, List.nil_append, read_text hr]
    simp [Pure.pure, Except.pure, Except.map]
  | cons declaration declarations ih =>
    rw [List.map_cons, List.cons_append, read_option (ne_of_field _) (argument_field _), set_field,
      List.mapM_cons]
    cases declared declaration with
    | error e => rfl
    | ok field =>
      have hnone : ({ r with fields := r.fields ++ [field] } : Request).formula = none := hr
      refine (ih hnone).trans ?_
      cases declarations.mapM declared with
      | error e => rfl
      | ok fields => simp [Except.map, Bind.bind, Except.bind, Pure.pure, Except.pure]

theorem read_encoding {arguments : List String} (encoding : Encoding) :
    Request.read [.field, .encoding, .output] {} (("--encoding=" ++ encoding.name) :: arguments) =
      Request.read [.field, .encoding, .output] { encoding := some encoding } arguments := by
  have hargument : Argument.ofString [.field, .encoding, .output]
      ("--encoding=" ++ encoding.name) = .option .encoding (some encoding.name) := by
    cases encoding <;> decide
  have hne : "--encoding=" ++ encoding.name ≠ "--" := by cases encoding <;> decide
  have hset : ({} : Request).set .encoding encoding.name = .ok { encoding := some encoding } := by
    rw [Request.set, Encoding.ofString_name]
    rfl
  rw [read_option hne hargument, hset]
  rfl

theorem request_declarations (build : Option Encoding → Command) (encoding : Option Encoding) :
    (Request.read (.field :: kinds) { encoding }
      (declarations.map ("--field=" ++ ·) ++ ["--", text]) >>= fun r =>
        Invocation.ofRequest (build r.encoding) r) =
      declarations.mapM declared >>= fun fields =>
        if fields = [] then .error .incomplete else .ok ⟨build encoding, fields, text, none⟩ := by
  rw [read_declarations rfl]
  cases declarations.mapM declared with
  | error e => rfl
  | ok fields =>
    cases fields with
    | nil => rfl
    | cons field fields => rfl

/-- The arguments of a command are read into its invocation on the declared fields. -/
theorem ofArguments_arguments : Invocation.ofArguments (command.arguments declarations text) =
    declarations.mapM declared >>= fun fields =>
      if fields = [] then .error .incomplete else .ok ⟨command, fields, text, none⟩ := by
  cases command with
  | expand => exact request_declarations (fun _ => .expand) none
  | schema => exact request_declarations (fun _ => .schema) none
  | columns encoding =>
    change (Request.read [.field, .encoding, .output] {} (("--encoding=" ++ encoding.name) ::
      (declarations.map ("--field=" ++ ·) ++ ["--", text])) >>= fun r =>
        Invocation.ofRequest (.columns (r.encoding.getD default)) r) = _
    rw [read_encoding]
    exact request_declarations (fun encoding => .columns (encoding.getD default)) (some encoding)

theorem ofArguments_eq_ok_iff {invocation : Invocation} :
    Invocation.ofArguments (command.arguments declarations text) = .ok invocation ↔
      ∃ fields, Declares declarations fields ∧ fields ≠ [] ∧
        ⟨command, fields, text, none⟩ = invocation := by
  rw [ofArguments_arguments, bind_eq_ok_iff]
  refine exists_congr fun fields => ?_
  rw [mapM_declared_eq_ok_iff]
  cases fields with
  | nil => simp
  | cons field fields => simp

/-! ## What the commands find -/

variable {s : Schema} {f g : Formula} {b : BoundFormula} {finding : Finding}

theorem run_eq_ok_iff : command.run fields text = .ok finding ↔
    ∃ s, Schema.ofFields fields = .ok s ∧ command.runOn s text = .ok finding := by
  unfold Command.run
  cases h : Schema.ofFields fields with
  | error e => simp
  | ok s => simp [mapError_eq_ok_iff]

theorem exists_evaluate_emptyOf (hb : f.bind s = .ok b) :
    ∃ e, b.evaluate (Batch.emptyOf s) = .ok e := by
  apply BoundFormula.exists_evaluate
  rw [b.input_of_bind hb]
  intro field hfield
  have hnames : ((Batch.emptyOf s).columns.map Prod.fst).Nodup := by
    rw [Batch.emptyOf, List.map_map]
    exact s.nodup_names
  have hcolumn := Batch.column?_of_mem hnames
    (List.mem_map_of_mem (f := fun field => (field.name, Column.empty field.type)) hfield)
  refine ⟨_, Source.decode_eq_ok_iff.mpr ⟨_, hcolumn, ?_, rfl⟩⟩
  rw [Column.storage_empty]
  exact field.type.accepts_storage

theorem parse_model (hp : Formula.parse text = .ok f) (hb : f.bind s = .ok b) :
    Model.parse text s = .ok ⟨b⟩ := by
  have hmodel : Model.ofFormula f s = .ok ⟨b⟩ := by
    rw [Model.ofFormula, hb]
    rfl
  rw [Model.parse, hp]
  exact hmodel

theorem runOn_expand (hp : Formula.parse text = .ok f) (hg : f.expand s = .ok g) :
    Command.expand.runOn s text = .ok { text := g.render } := by
  unfold Command.runOn
  rw [hp]
  simp [Except.mapError, Bind.bind, Except.bind, hg]

theorem runOn_schema (hp : Formula.parse text = .ok f) (hb : f.bind s = .ok b) :
    Command.schema.runOn s text =
      .ok { text := b.output.render, unused := b.unusedColumns } := by
  unfold Command.runOn
  rw [parse_model hp hb]
  rfl

theorem runOn_columns {encoding : Encoding} {e : Evaluation} (hp : Formula.parse text = .ok f)
    (hb : f.bind s = .ok b) (he : b.evaluate (Batch.emptyOf s) = .ok e) :
    (Command.columns encoding).runOn s text =
      .ok { text := String.intercalate "\n" (e.x encoding).names } := by
  have hmodel : Model.evaluate ⟨b⟩ (Batch.emptyOf s) = .ok e := mapError_eq_ok_iff.mpr he
  unfold Command.runOn
  refine bind_eq_ok_iff.mpr ⟨_, parse_model hp hb, ?_⟩
  exact bind_eq_ok_iff.mpr ⟨e, hmodel, rfl⟩

theorem exists_bind_of_runOn_schema (h : Command.schema.runOn s text = .ok finding) :
    ∃ f b, Formula.parse text = .ok f ∧ f.bind s = .ok b := by
  unfold Command.runOn at h
  obtain ⟨model, hmodel, -⟩ := bind_eq_ok_iff.mp h
  unfold Model.parse at hmodel
  split at hmodel
  · cases hmodel
  · next f hp =>
    obtain ⟨b, hb, -⟩ := map_eq_ok_iff.mp hmodel
    exact ⟨f, b, hp, mapError_eq_ok_iff.mp hb⟩

/-! ## Reports -/

namespace Report

theorem ofArguments_of_finding (hd : Declares declarations fields) (hne : fields ≠ [])
    (hs : Schema.ofFields fields = .ok s) (h : command.runOn s text = .ok finding) :
    ofArguments (command.arguments declarations text) =
      { stdout := ended finding.text, stderr := warning finding.unused } := by
  unfold ofArguments
  rw [ofArguments_eq_ok_iff.mpr ⟨fields, hd, hne, rfl⟩]
  simp only [run_eq_ok_iff.mpr ⟨s, hs, h⟩]
  rfl

theorem exists_finding_of_code (h : (ofArguments (command.arguments declarations text)).code = 0) :
    ∃ fields s finding, Declares declarations fields ∧ fields ≠ [] ∧
      Schema.ofFields fields = .ok s ∧ command.runOn s text = .ok finding := by
  unfold ofArguments at h
  split at h
  · cases h
  · next invocation hi =>
    obtain ⟨fields, hd, hne, rfl⟩ := ofArguments_eq_ok_iff.mp hi
    split at h
    · cases h
    · next finding hrun =>
      obtain ⟨s, hs, hfinding⟩ := run_eq_ok_iff.mp hrun
      exact ⟨fields, s, finding, hd, hne, hs, hfinding⟩

theorem ended_of_endsVisibly (h : EndsVisibly text.toList) : ended text = text ++ "\n" := by
  obtain ⟨ds, c, hchars, hc⟩ := h
  have hc' : (c == '\n') = false := beq_false_of_ne hc
  apply String.toList_inj.mp
  rw [ended, String.toList_ofList, String.toList_append, hchars]
  simp [hc']

/-- What the commands print for a text and for its printed expansion, with or without the line break
at its end. -/
structure ExpansionAgrees (declarations : List String) (text printed : String) : Prop where

  expand : ofArguments (Command.expand.arguments declarations text) =
    { stdout := printed ++ "\n" }

  expand_again : ∀ again ∈ [printed, printed ++ "\n"],
    ofArguments (Command.expand.arguments declarations again) = { stdout := printed ++ "\n" }

  schema_again : ∀ again ∈ [printed, printed ++ "\n"],
    ofArguments (Command.schema.arguments declarations again) =
      ofArguments (Command.schema.arguments declarations text)

  columns_again : ∀ again ∈ [printed, printed ++ "\n"], ∀ encoding, ∃ names,
    ofArguments ((Command.columns encoding).arguments declarations text) = { stdout := names } ∧
      ofArguments ((Command.columns encoding).arguments declarations again) = { stdout := names }

theorem isName_of_declares (hd : Declares declarations fields)
    (hs : Schema.ofFields fields = .ok s)
    (hnames : ∀ declaration ∈ declarations, ∀ field, Field.ofDeclaration declaration = .ok field →
      quoteMark ∉ field.name.toList) : ∀ name ∈ s.names, IsName name := by
  intro name hname
  obtain ⟨field, hfield, rfl⟩ := List.mem_map.mp hname
  rw [Schema.ofFields_eq_ok_iff.mp hs] at hfield
  obtain ⟨declaration, hmem, hdeclared⟩ := exists_mem_of_mem_right hd hfield
  exact ⟨name_ne_of_declaration hdeclared, hnames declaration hmem field hdeclared⟩

/-- The printed expansion of a formula that can be bound is a formula for which all commands print
what they print for the formula itself. -/
theorem expansionAgrees_of_schema
    (hnames : ∀ declaration ∈ declarations, ∀ field, Field.ofDeclaration declaration = .ok field →
      quoteMark ∉ field.name.toList)
    (h : (ofArguments (Command.schema.arguments declarations text)).code = 0) :
    ∃ printed, ExpansionAgrees declarations text printed := by
  obtain ⟨fields, s, finding, hd, hne, hs, hfinding⟩ := exists_finding_of_code h
  obtain ⟨f, b, hp, hb⟩ := exists_bind_of_runOn_schema hfinding
  have hexpand := (Formula.bind_iff.mp hb).1
  have hwritable := Formula.regular_of_bind hp hb (isName_of_declares hd hs hnames)
  have hended : ended b.formula.render = b.formula.render ++ "\n" := by
    apply ended_of_endsVisibly
    rw [Formula.toList_render]
    exact Formula.endsVisibly_chars hwritable
  have hread := Formula.parse_render_of_regular hwritable
  have hagain : ∀ again ∈ [b.formula.render, b.formula.render ++ "\n"],
      Formula.parse again = .ok b.formula := by
    rw [List.forall_mem_cons, List.forall_mem_singleton]
    exact ⟨hread, Formula.parse_append_gap hread Formula.isGap_break⟩
  have hbind : b.formula.bind s = .ok b := by rw [Formula.bind_of_expand hexpand, hb]
  obtain ⟨e, he⟩ := exists_evaluate_emptyOf hb
  refine ⟨b.formula.render, ?_, ?_, ?_, ?_⟩
  · rw [ofArguments_of_finding hd hne hs (runOn_expand hp hexpand), hended]
    rfl
  · intro again hmem
    have hsame := Formula.expand_of_expand hexpand
    rw [ofArguments_of_finding hd hne hs (runOn_expand (hagain again hmem) hsame), hended]
    rfl
  · intro again hmem
    rw [ofArguments_of_finding hd hne hs (runOn_schema (hagain again hmem) hbind),
      ofArguments_of_finding hd hne hs (runOn_schema hp hb)]
  · intro again hmem encoding
    refine ⟨_, ofArguments_of_finding hd hne hs (runOn_columns hp hb he), ?_⟩
    exact ofArguments_of_finding hd hne hs (runOn_columns (hagain again hmem) hbind he)

/-- A crossing with a quoted name, and the wildcard for the column that is left. -/
theorem expansionAgrees_of_crossing :
    ∃ printed, ExpansionAgrees ["y:f64", "a b:f64", "g:categorical[u,v]", "w:f64"]
      "y ~ g && log(`a b`) + ." printed := by
  have hall : ∀ declaration ∈ ["y:f64", "a b:f64", "g:categorical[u,v]", "w:f64"],
      ∀ field ∈ (Field.ofDeclaration declaration).toOption, quoteMark ∉ field.name.toList := by
    decide +kernel
  apply expansionAgrees_of_schema
  · intro declaration hmem field hfield
    refine hall declaration hmem field ?_
    rw [hfield]
    rfl
  · decide +kernel

end Report

end ModelFormula
