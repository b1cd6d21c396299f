import ModelFormula.Proofs.Grammar

/-! # Edits of a formula

What one insertion or removal does to the predictors and to the response, and the invariants that
a run of edits keeps when every single one keeps them.
-/

namespace ModelFormula

/-- The terms that an edit adds or removes one after the other. -/
def Edit.summands : Edit → List Term
  | .add term | .remove term => term.summands

namespace Formula

variable {f : Formula} {term u : Term} {edit : Edit} {edits : List Edit}

theorem predictors_insert (f : Formula) (term : Term) : (f.insert term).predictors =
    if term ∈ f.predictors then f.predictors else f.predictors ++ [term] := by
  unfold insert
  split <;> rfl

theorem predictors_insert_of_not_mem (h : term ∉ f.predictors) :
    (f.insert term).predictors = f.predictors ++ [term] := by
  rw [predictors_insert, if_neg h]

@[simp] theorem mem_insert : u ∈ (f.insert term).predictors ↔ u ∈ f.predictors ∨ u = term := by
  rw [predictors_insert]
  split
  · next h => exact ⟨Or.inl, fun hu => hu.elim id fun e => e ▸ h⟩
  · simp

@[simp] theorem response_insert (f : Formula) (term : Term) :
    (f.insert term).response = f.response := by
  unfold insert
  split <;> rfl

@[simp] theorem predictors_erase (f : Formula) (term : Term) :
    (f.erase term).predictors = f.predictors.erase term := by
  unfold erase
  split
  · rfl
  · next h => exact (List.erase_of_not_mem h).symm

theorem response_erase (f : Formula) (term : Term) : (f.erase term).response =
    if term ∈ f.predictors then f.response.map (·.remove term) else f.response := by
  unfold erase
  split <;> rfl

@[simp] theorem term_remove (r : Response) (term : Term) : (r.remove term).term = r.term := by
  unfold Response.remove
  split <;> rfl

@[simp] theorem responseTerm?_insert (f : Formula) (term : Term) :
    (f.insert term).responseTerm? = f.responseTerm? := by
  rw [responseTerm?, response_insert, responseTerm?]

@[simp] theorem responseTerm?_erase (f : Formula) (term : Term) :
    (f.erase term).responseTerm? = f.responseTerm? := by
  rw [responseTerm?, response_erase]
  split
  · cases h : f.response <;> simp [responseTerm?, h]
  · rfl

/-- What every insertion and every erasure keeps, an edit keeps. -/
theorem edit_induction {P : Formula → Prop}
    (hi : ∀ f, P f → ∀ t ∈ edit.summands, P (f.insert t))
    (he : ∀ f, P f → ∀ t ∈ edit.summands, P (f.erase t)) (h : P f) : P (f.edit edit) := by
  cases edit with
  | add term => exact List.foldlRecOn _ _ h hi
  | remove term => exact List.foldlRecOn _ _ h he

/-- What every edit of a script keeps, the run keeps. -/
theorem run_induction {P : Formula → Prop} (hs : ∀ f, P f → ∀ e ∈ edits, P (f.edit e))
    (h : P f) : P (f.run edits) :=
  List.foldlRecOn _ _ h hs

@[simp] theorem responseTerm?_edit (f : Formula) (edit : Edit) :
    (f.edit edit).responseTerm? = f.responseTerm? :=
  edit_induction (P := fun g => g.responseTerm? = f.responseTerm?)
    (fun g hg t _ => (responseTerm?_insert g t).trans hg)
    (fun g hg t _ => (responseTerm?_erase g t).trans hg) rfl

@[simp] theorem responseTerm?_run (f : Formula) (edits : List Edit) :
    (f.run edits).responseTerm? = f.responseTerm? :=
  run_induction (P := fun g => g.responseTerm? = f.responseTerm?)
    (fun g hg e _ => (responseTerm?_edit g e).trans hg) rfl

@[simp] theorem responseTerm?_ofResponse (response : Option Term) :
    (ofResponse response).responseTerm? = response := by
  cases response <;> rfl

theorem run_append (f : Formula) (edits edits' : List Edit) :
    f.run (edits ++ edits') = (f.run edits).run edits' :=
  List.foldl_append

theorem run_cons (f : Formula) (edit : Edit) (edits : List Edit) :
    f.run (edit :: edits) = (f.edit edit).run edits := rfl

theorem edit_add_of_summands (h : term.summands = [term]) : f.edit (.add term) = f.insert term := by
  rw [edit, add, h]
  rfl

theorem edit_remove_of_summands (h : term.summands = [term]) :
    f.edit (.remove term) = f.erase term := by
  rw [edit, remove, h]
  rfl

end Formula

end ModelFormula
