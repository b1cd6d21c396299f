import ModelFormula.Formula.Printer
import ModelFormula.Proofs.Regular

/-! # Printed formulas are written formulas

The text of a formula whose functions have plain names is one way to write a script of edits, and
this script leads to the formula: after the edits of the first predictors the state has just these
predictors, and the response is released once its own predictor has been passed.
-/

namespace ModelFormula

open Grammar

theorem intercalate_cons (sep cs : List Char) (css : List (List Char)) :
    sep.intercalate (cs :: css) = cs ++ css.flatMap (sep ++ ·) := by
  induction css generalizing cs with
  | nil => simp [List.intercalate]
  | cons ds css ih =>
    rw [List.intercalate_cons_cons, ih, List.flatMap_cons, List.append_assoc, List.append_assoc]

theorem writesName_quotedName {name : String} (h : IsName name) :
    WritesName name (quotedName name) := by
  unfold quotedName
  split
  · next hp => exact .plain hp
  · exact .quoted h

namespace Term

variable {term : Term}

theorem chars_function (name : String) (arg : Term) :
    (Term.function name arg).chars = name.toList ++ '(' :: (arg.chars ++ [')']) := by
  simp [chars, charsWith]

theorem chars_interaction (first : Term) (others : List Term) :
    (Term.interaction (first :: others)).chars =
      first.chars ++ others.flatMap fun t => [':', ':'] ++ t.chars := by
  rw [chars, charsWith, charsBetween_eq, List.map_cons, intercalate_cons, List.flatMap_map]
  rfl

theorem writesLinks_chars {terms : List Term} (h : ∀ t ∈ terms, WritesFactor t t.chars) :
    WritesLinks [':', ':'] terms (terms.flatMap fun t => [':', ':'] ++ t.chars) := by
  induction terms with
  | nil => exact .nil
  | cons term terms ih =>
    obtain ⟨hterm, hterms⟩ := List.forall_mem_cons.mp h
    rw [List.flatMap_cons, List.append_assoc]
    exact .cons isGap_nil isGap_nil hterm (ih hterms)

theorem writesTerm_of_writesFactor {cs : List Char} (h : WritesFactor term cs) :
    WritesTerm term cs := by
  rw [← Formula.interactionOf_singleton h, ← List.append_nil cs]
  exact .interaction h .nil

theorem writes_chars (h : term.Expressible IsPlain) :
    (term.isFactor = true → WritesFactor term term.chars) ∧ WritesTerm term term.chars := by
  induction h with
  | @column name hn =>
    have hf : WritesFactor (.variable name) (Term.variable name).chars :=
      .column (writesName_quotedName hn)
    exact ⟨fun _ => hf, writesTerm_of_writesFactor hf⟩
  | @function name arg hn ha ih =>
    have hf : WritesFactor (.function name arg) (Term.function name arg).chars := by
      rw [chars_function]
      exact .call (.plain hn) isGap_nil isGap_nil ih.2 ha.isPlaceholder isGap_nil
    exact ⟨fun _ => hf, writesTerm_of_writesFactor hf⟩
  | @interaction operands hl hf _ ih =>
    cases operands with
    | nil => simp at hl
    | cons first others =>
      have hall : ∀ t ∈ first :: others, WritesFactor t t.chars :=
        fun t ht => (ih t ht).1 (hf t ht)
      obtain ⟨hfirst, hothers⟩ := List.forall_mem_cons.mp hall
      have hw := WritesTerm.interaction hfirst (writesLinks_chars hothers)
      rw [interactionOf_eq hl hf, ← chars_interaction] at hw
      exact ⟨fun h => Bool.noConfusion h, hw⟩

/-- A predictor with plain function names is written by its text under both signs. -/
theorem Listable.writesItem (h : term.Listable IsPlain) :
    WritesItem .plus (.add term) term.chars ∧ WritesItem .minus (.remove term) term.chars := by
  cases h with
  | dot => exact ⟨.add .dot, .remove .dot⟩
  | intercept => exact ⟨.addOne, .removeOne⟩
  | expressible h => exact ⟨.add (writes_chars h).2, .remove (writes_chars h).2⟩

end Term

namespace Formula

def predictorEdits (released : Option Term) (term : Term) : List Edit :=
  if released = some term then [.add term, .remove term, .add term] else [.add term]

/-- The edits that the text of the right side writes before the release of a response that is no
predictor. -/
def rightEdits (f : Formula) : List Edit :=
  if f.predictors = [] then [.remove .intercept]
  else f.predictors.flatMap (predictorEdits f.releasedTerm?)

def releaseEdits (f : Formula) : List Edit :=
  match f.releasedTerm? with
  | some term => if term ∈ f.predictors then [] else [.add term, .remove term]
  | none => []

def printedEdits (f : Formula) : List Edit := f.rightEdits ++ f.releaseEdits

section Text

variable {f : Formula} {term : Term} {released : Option Term} {edits edits' : List Edit}
  {cs ds : List Char}

theorem writesItems_append (h : WritesItems edits cs) (h' : WritesItems edits' ds) :
    WritesItems (edits ++ edits') (cs ++ ds) := by
  induction h with
  | nil => exact h'
  | cons h₁ h₂ hi _ ih => simpa using WritesItems.cons h₁ h₂ hi ih

theorem writesItems_add (h : WritesItem .plus (.add term) cs) :
    WritesItems [.add term] (" + ".toList ++ cs) := by
  simpa [signMark] using WritesItems.cons isGap_space isGap_space h .nil

theorem writesItems_remove (h : WritesItem .minus (.remove term) cs) :
    WritesItems [.remove term] (" - ".toList ++ cs) := by
  simpa [signMark] using WritesItems.cons isGap_space isGap_space h .nil

theorem exists_predictorEdits (h : term.Listable IsPlain) (released : Option Term) :
    ∃ edits cs, predictorEdits released term = .add term :: edits ∧
      predictorChars released term = term.chars ++ cs ∧ WritesItems edits cs := by
  obtain ⟨hadd, hremove⟩ := h.writesItem
  unfold predictorEdits predictorChars
  split
  · refine ⟨[.remove term, .add term], " - ".toList ++ term.chars ++ (" + ".toList ++ term.chars),
      rfl, by simp only [List.append_assoc], ?_⟩
    exact writesItems_append (writesItems_remove hremove) (writesItems_add hadd)
  · exact ⟨[], [], rfl, (List.append_nil _).symm, .nil⟩

theorem writesItems_predictor (h : term.Listable IsPlain) :
    WritesItems (predictorEdits released term) (" + ".toList ++ predictorChars released term) := by
  obtain ⟨edits, cs, hedits, hchars, hw⟩ := exists_predictorEdits h released
  rw [hedits, hchars, ← List.append_assoc]
  exact writesItems_append (writesItems_add h.writesItem.1) hw

theorem writesItems_predictors {terms : List Term} (h : ∀ t ∈ terms, t.Listable IsPlain) :
    WritesItems (terms.flatMap (predictorEdits released))
      (terms.flatMap fun t => " + ".toList ++ predictorChars released t) := by
  induction terms with
  | nil => exact .nil
  | cons term terms ih =>
    obtain ⟨hterm, hterms⟩ := List.forall_mem_cons.mp h
    rw [List.flatMap_cons, List.flatMap_cons]
    exact writesItems_append (writesItems_predictor hterm) (ih hterms)

theorem responseTerm?_of_releasedTerm? (h : f.releasedTerm? = some term) :
    f.responseTerm? = some term := by
  unfold releasedTerm? at h
  unfold responseTerm?
  cases hr : f.response with
  | none => simp [hr] at h
  | some r =>
    rw [hr, Option.filter_some] at h
    split at h
    · exact h
    · cases h

theorem writesItems_release (h : f.Regular IsPlain) :
    WritesItems f.releaseEdits f.releaseChars := by
  unfold releaseEdits releaseChars
  cases ht : f.releasedTerm? with
  | none => exact .nil
  | some term =>
    have hterm := h.response term (responseTerm?_of_releasedTerm? ht)
    obtain ⟨hadd, hremove⟩ := Term.Listable.writesItem (.expressible hterm)
    by_cases hmem : term ∈ f.predictors
    · simp only [if_pos hmem]
      exact .nil
    · simp only [if_neg hmem]
      rw [List.append_assoc]
      exact writesItems_append (writesItems_add hadd) (writesItems_remove hremove)

theorem writesRight_chars (h : f.Regular IsPlain) :
    WritesRight f.printedEdits (f.rightChars ++ f.releaseChars) := by
  have hrelease := writesItems_release h
  have hpredictors := h.predictors
  unfold printedEdits rightEdits rightChars
  cases hp : f.predictors with
  | nil => exact .unsigned .removeZero hrelease
  | cons first others =>
    rw [hp] at hpredictors
    obtain ⟨hfirst, hothers⟩ := List.forall_mem_cons.mp hpredictors
    obtain ⟨edits, cs, hedits, hchars, hw⟩ := exists_predictorEdits hfirst f.releasedTerm?
    rw [if_neg (List.cons_ne_nil _ _), if_neg (List.cons_ne_nil _ _), List.map_cons,
      intercalate_cons, List.flatMap_map, List.flatMap_cons, hedits, hchars]
    simp only [List.append_assoc, List.cons_append]
    exact .unsigned hfirst.writesItem.1
      (writesItems_append hw (writesItems_append (writesItems_predictors hothers) hrelease))

/-- The text of a regular formula writes its response and its printed edits. -/
theorem writesFormula_chars (h : f.Regular IsPlain) :
    WritesFormula f.responseTerm? f.printedEdits f.chars := by
  have hright := writesRight_chars h
  unfold chars leftChars
  cases hr : f.responseTerm? with
  | none => simpa using WritesFormula.mk isGap_nil .none isGap_space hright isGap_nil
  | some term =>
    have he := h.response term hr
    have hleft := WritesLeft.some (Term.writes_chars he).2 he.isPlaceholder isGap_space
    simpa using WritesFormula.mk isGap_nil hleft isGap_space hright isGap_nil

end Text

end Formula

end ModelFormula
