import ModelFormula.Proofs.Constructors
import ModelFormula.Proofs.Printing

/-! # Names without backticks

A text without backticks mentions only columns with plain names, whatever else may be read into it:
literals, several terms, or a name without its blanks. So a bare name is read as the column of this
name exactly when it is plain, and these are the names that are printed bare.
-/

namespace ModelFormula

namespace Term

variable {t u : Term} {operands : List Term} {name : String}

theorem columns_interactionOf (operands : List Term) :
    (interactionOf operands).columns = operands.flatMap columns :=
  collect_interactionOf columnsAll_eq operands

theorem mem_columns_crossingOf :
    name ∈ (crossingOf operands).columns ↔ name ∈ operands.flatMap columns :=
  mem_collect_crossingOf columnsAll_eq

theorem columns_subset_of_mem_summands (h : u ∈ t.summands) : u.columns ⊆ t.columns := by
  by_cases ht : ∃ operands, t = .crossing operands
  · obtain ⟨operands, rfl⟩ := ht
    obtain ⟨ts, -, hsub, rfl⟩ := exists_of_mem_crossingTerms h
    rintro name hname
    rw [columns_interactionOf, List.mem_flatMap] at hname
    obtain ⟨v, hv, hname⟩ := hname
    rw [columns, columnsAll_eq]
    exact List.mem_flatMap.mpr ⟨v, hsub v hv, hname⟩
  · obtain rfl : u = t := by
      cases t <;> first | exact List.mem_singleton.mp h | exact absurd ⟨_, rfl⟩ ht
    exact fun _ hname => hname

/-- Every column that the term mentions has a plain name. -/
def IsBare (t : Term) : Prop := ∀ name ∈ t.columns, IsPlain name

theorem isBare_interactionOf (h : ∀ t ∈ operands, t.IsBare) : (interactionOf operands).IsBare := by
  intro name hname
  rw [columns_interactionOf] at hname
  obtain ⟨t, ht, hname⟩ := List.mem_flatMap.mp hname
  exact h t ht name hname

theorem isBare_crossingOf (h : ∀ t ∈ operands, t.IsBare) : (crossingOf operands).IsBare := by
  intro name hname
  rw [mem_columns_crossingOf] at hname
  obtain ⟨t, ht, hname⟩ := List.mem_flatMap.mp hname
  exact h t ht name hname

end Term

def Edit.IsBare : Edit → Prop
  | .add term | .remove term => term.IsBare

theorem Edit.IsBare.of_mem_summands {edit : Edit} {u : Term} (h : edit.IsBare)
    (hu : u ∈ edit.summands) : u.IsBare := by
  cases edit <;> exact fun name hname => h name (Term.columns_subset_of_mem_summands hu hname)

/-! ## What is written without backticks -/

namespace Grammar

open Formula (Sign)

variable {name : String} {cs : List Char} {edit : Edit} {edits : List Edit}

theorem isPlain_of_writesName (h : WritesName name cs) (hq : quoteMark ∉ cs) : IsPlain name := by
  cases h with
  | plain h => exact h
  | quoted => exact absurd List.mem_cons_self hq

mutual

theorem isBare_of_writesFactor : ∀ {term : Term} {cs : List Char}, WritesFactor term cs →
    quoteMark ∉ cs → term.IsBare
  | _, _, .column hn, hq => by
    rintro name hname
    obtain rfl := List.mem_singleton.mp hname
    exact isPlain_of_writesName hn hq
  | _, _, .call _ _ _ ha _ _, hq => by
    simp only [List.mem_append, List.mem_cons, not_or] at hq
    obtain ⟨-, -, -, -, hbody, -⟩ := hq
    intro name hname
    exact isBare_of_writesTerm ha hbody name hname

theorem isBare_of_writesLinks : ∀ {symbol : List Char} {terms : List Term} {cs : List Char},
    WritesLinks symbol terms cs → quoteMark ∉ cs → ∀ t ∈ terms, t.IsBare
  | _, _, _, .nil, _ => fun _ ht => nomatch ht
  | _, _, _, .cons _ _ hf hl, hq => by
    simp only [List.mem_append, not_or] at hq
    obtain ⟨-, -, -, hfirst, hothers⟩ := hq
    exact List.forall_mem_cons.mpr
      ⟨isBare_of_writesFactor hf hfirst, isBare_of_writesLinks hl hothers⟩

theorem isBare_of_writesTerm : ∀ {term : Term} {cs : List Char}, WritesTerm term cs →
    quoteMark ∉ cs → term.IsBare
  | _, _, .dot, _ => fun _ hname => nomatch hname
  | _, _, .interaction hf hl, hq => by
    simp only [List.mem_append, not_or] at hq
    exact Term.isBare_interactionOf (List.forall_mem_cons.mpr
      ⟨isBare_of_writesFactor hf hq.1, isBare_of_writesLinks hl hq.2⟩)
  | _, _, .crossing hf hl, hq => by
    simp only [List.mem_append, not_or] at hq
    exact Term.isBare_crossingOf (List.forall_mem_cons.mpr
      ⟨isBare_of_writesFactor hf hq.1, isBare_of_writesLinks hl hq.2⟩)

end

theorem isBare_of_writesItem {sign : Sign} (h : WritesItem sign edit cs) (hq : quoteMark ∉ cs) :
    edit.IsBare := by
  cases h with
  | add h => exact isBare_of_writesTerm h hq
  | remove h => exact isBare_of_writesTerm h hq
  | addOne | removeOne | removeZero | addZero => exact fun _ hname => nomatch hname

theorem isBare_of_writesRight (h : WritesRight edits cs) (hq : quoteMark ∉ cs) :
    ∀ e ∈ edits, e.IsBare := by
  intro e he
  obtain ⟨sign, is, hpiece, hi⟩ := exists_item_of_mem_right h he
  exact isBare_of_writesItem hi fun hmem => hq (hpiece.subset hmem)

theorem isBare_of_writesLeft {response : Option Term} (h : WritesLeft response cs)
    (hq : quoteMark ∉ cs) : ∀ t ∈ response, t.IsBare := by
  cases h with
  | none => exact fun _ ht => nomatch ht
  | some ht _ _ =>
    rintro u ⟨⟩
    simp only [List.mem_append, not_or] at hq
    exact isBare_of_writesTerm ht hq.1

theorem isBare_of_writesFormula {response : Option Term} (h : WritesFormula response edits cs)
    (hq : quoteMark ∉ cs) : (∀ t ∈ response, t.IsBare) ∧ ∀ e ∈ edits, e.IsBare := by
  cases h with
  | mk _ hl _ hr _ =>
    simp only [List.mem_append, List.mem_cons, not_or] at hq
    obtain ⟨-, hleft, -, -, hright, -⟩ := hq
    exact ⟨isBare_of_writesLeft hl hleft, isBare_of_writesRight hr hright⟩

end Grammar

/-! ## What is read without backticks -/

namespace Formula

open Grammar

variable {f : Formula} {edits : List Edit} {name : String}

theorem isBare_of_mem_run (hf : ∀ t ∈ f.predictors, t.IsBare) (he : ∀ e ∈ edits, e.IsBare) :
    ∀ t ∈ (f.run edits).predictors, t.IsBare := by
  apply run_induction (P := fun g => ∀ t ∈ g.predictors, t.IsBare) _ hf
  intro g hg e hmem
  apply edit_induction (P := fun g => ∀ t ∈ g.predictors, t.IsBare) _ _ hg
  · intro g hg t ht u hu
    rcases mem_insert.mp hu with hu | rfl
    · exact hg u hu
    · exact (he e hmem).of_mem_summands ht
  · intro g hg t _ u hu
    rw [predictors_erase] at hu
    exact hg u (List.mem_of_mem_erase hu)

/-- A text without backticks mentions only columns with plain names. -/
theorem isBare_of_parse {text : String} (h : parse text = .ok f) (hq : quoteMark ∉ text.toList) :
    ∀ t ∈ f.terms, t.IsBare := by
  obtain ⟨response, edits, hw, rfl⟩ := parse_eq_ok_iff.mp h
  obtain ⟨hresponse, hedits⟩ := isBare_of_writesFormula hw hq
  intro t ht
  rcases List.mem_append.mp ht with ht | ht
  · rw [responseTerm?_run, responseTerm?_ofResponse, Option.mem_toList] at ht
    exact hresponse t ht
  · have hnone : ∀ t ∈ (ofResponse response).predictors, t.IsBare := by
      intro t ht
      cases ht
    exact isBare_of_mem_run hnone hedits t ht

/-- The text is read as the formula of this one column. -/
def ReadsColumn (text name : String) : Prop :=
  ∃ f : Formula, parse text = .ok f ∧ f.response = none ∧ f.predictors = [.variable name]

theorem readsColumn_render (h : IsName name) :
    ReadsColumn ("~ " ++ (Term.variable name).render) name := by
  have hterm : WritesTerm (.variable name) (Term.variable name).chars :=
    Term.writesTerm_of_writesFactor (.column (writesName_quotedName h))
  have hright : WritesRight [.add (.variable name)] (Term.variable name).chars := by
    simpa using WritesRight.unsigned (.add hterm) .nil
  have hformula : WritesFormula none [.add (.variable name)]
      ("~ " ++ (Term.variable name).render).toList := by
    simpa using WritesFormula.mk isGap_nil .none isGap_space hright isGap_nil
  exact ⟨_, parse_eq_ok_iff.mpr ⟨_, _, hformula, rfl⟩, rfl, rfl⟩

theorem isPlain_of_readsColumn {text : String} (h : ReadsColumn text name)
    (hq : quoteMark ∉ text.toList) : IsPlain name := by
  obtain ⟨f, hparse, -, hpredictors⟩ := h
  have hmem : .variable name ∈ f.terms := by
    apply List.mem_append_right
    rw [hpredictors]
    exact List.mem_singleton_self _
  exact isBare_of_parse hparse hq _ hmem name (List.mem_singleton_self _)

theorem render_variable_of_isPlain (h : IsPlain name) : (Term.variable name).render = name := by
  rw [IsPlain] at h
  simp [Term.render, Term.chars, Term.charsWith, quotedName, h]

theorem isPlain_of_quoteMark_not_mem (h : quoteMark ∉ (Term.variable name).render.toList) :
    IsPlain name := by
  rw [Term.toList_render, Term.chars, Term.charsWith, quotedName] at h
  split at h
  · assumption
  · exact absurd List.mem_cons_self h

/-- A name is printed bare exactly when it can be read bare as the column of this name, and what is
printed is always read as this column. -/
theorem render_variable_eq_iff_readsColumn (h : IsName name) :
    (quoteMark ∉ (Term.variable name).render.toList ↔ ReadsColumn ("~ " ++ name) name) ∧
    ((Term.variable name).render = name ↔ ReadsColumn ("~ " ++ name) name) ∧
    ReadsColumn ("~ " ++ (Term.variable name).render) name := by
  have hread := readsColumn_render h
  have hplain : ReadsColumn ("~ " ++ name) name → (Term.variable name).render = name := by
    intro hbare
    apply render_variable_of_isPlain
    apply isPlain_of_readsColumn hbare
    rw [String.toList_append, List.mem_append, not_or]
    exact ⟨by decide, h.2⟩
  refine ⟨⟨fun hq => ?_, fun hbare => ?_⟩, ⟨fun hrender => ?_, hplain⟩, hread⟩
  · rwa [render_variable_of_isPlain (isPlain_of_quoteMark_not_mem hq)] at hread
  · rw [hplain hbare]
    exact h.2
  · rwa [hrender] at hread

/-- A dotted name is read bare. A name that begins with a blank loses it, so that another column is
read, and a number is read as none. -/
theorem render_variable_eq_iff_readsColumn_blank :
    ReadsColumn "~ sepal.length" "sepal.length" ∧
      ¬ ReadsColumn "~  x" " x" ∧ ReadsColumn "~ ` x`" " x" ∧
      ¬ ReadsColumn "~ 1" "1" ∧ ReadsColumn "~ `1`" "1" := by
  have hdotted : IsName "sepal.length" := by decide
  have hblank : IsName " x" := by decide
  have hnumber : IsName "1" := by decide
  obtain ⟨-, hbare, -⟩ := render_variable_eq_iff_readsColumn hdotted
  obtain ⟨-, hbare', hquoted⟩ := render_variable_eq_iff_readsColumn hblank
  obtain ⟨-, hbare'', hquoted'⟩ := render_variable_eq_iff_readsColumn hnumber
  exact ⟨hbare.mp rfl, fun hread => absurd (hbare'.mpr hread) (by decide), hquoted,
    fun hread => absurd (hbare''.mpr hread) (by decide), hquoted'⟩

end Formula

end ModelFormula
