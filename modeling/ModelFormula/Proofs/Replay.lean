import ModelFormula.Proofs.Printing

/-! # Replaying a printed formula

The edits that the text of a formula writes lead back to the formula.
-/

namespace ModelFormula.Formula

variable {f g : Formula} {term : Term} {terms others : List Term}

/-- The state `g` shows `f` up to the given predictors: the response is released once its own
predictor has been passed. -/
structure Shows (f : Formula) (terms : List Term) (g : Formula) : Prop where
  predictors : g.predictors = terms
  response : g.response =
    f.response.map fun r => { r with released := r.released && decide (r.term ∈ terms) }

theorem shows_ofResponse (f : Formula) : f.Shows [] (ofResponse f.responseTerm?) where
  predictors := rfl
  response := by cases h : f.response <;> simp [ofResponse, responseTerm?, h]

theorem releasedTerm?_eq_some_iff {r : Response} (h : f.response = some r) :
    f.releasedTerm? = some term ↔ r.released = true ∧ r.term = term := by
  rw [releasedTerm?, h, Option.filter_some]
  split
  · next hr => simp [hr]
  · next hr => simp [hr]

/-- To add a new term and remove it again releases a response with this term. -/
theorem erase_insert_of_not_mem (h : term ∉ g.predictors) :
    ((g.insert term).erase term).predictors = g.predictors ∧
      ((g.insert term).erase term).response = g.response.map (·.remove term) := by
  constructor
  · rw [predictors_erase, predictors_insert_of_not_mem h, List.erase_append_right _ h]
    simp
  · rw [response_erase, if_pos (mem_insert.mpr (Or.inr rfl)), response_insert]

/-- The edits of a predictor show the formula up to it. -/
theorem Shows.predictor (h : f.Shows terms g) (hn : term ∉ terms) (hs : term.summands = [term]) :
    f.Shows (terms ++ [term]) (g.run (predictorEdits f.releasedTerm? term)) := by
  have hadd : (g.insert term).predictors = terms ++ [term] := by
    rw [← h.predictors] at hn ⊢
    exact predictors_insert_of_not_mem hn
  unfold predictorEdits
  split
  · next hr =>
    obtain ⟨herase, hresponse⟩ := erase_insert_of_not_mem (h.predictors ▸ hn)
    rw [run_cons, run_cons, run_cons, edit_add_of_summands hs, edit_remove_of_summands hs,
      edit_add_of_summands hs]
    refine ⟨?_, ?_⟩
    · rw [← h.predictors] at hn ⊢
      rw [← herase] at hn ⊢
      exact predictors_insert_of_not_mem hn
    · refine (response_insert _ term).trans (hresponse.trans ?_)
      rw [h.response]
      cases hf : f.response with
      | none => rfl
      | some r =>
        obtain ⟨hreleased, rfl⟩ := (releasedTerm?_eq_some_iff hf).mp hr
        simp [Response.remove, hreleased]
  · next hr =>
    rw [run_cons, edit_add_of_summands hs]
    refine ⟨hadd, (response_insert g term).trans (h.response.trans ?_)⟩
    cases hf : f.response with
    | none => rfl
    | some r =>
      rw [releasedTerm?_eq_some_iff hf, not_and] at hr
      cases hreleased : r.released with
      | false => simp [hreleased]
      | true => simp [hr hreleased]

theorem Shows.predictors_append (h : f.Shows terms g) (hn : (terms ++ others).Nodup)
    (hs : ∀ t ∈ others, t.summands = [t]) :
    f.Shows (terms ++ others) (g.run (others.flatMap (predictorEdits f.releasedTerm?))) := by
  induction others generalizing terms g with
  | nil => simpa [run] using h
  | cons term others ih =>
    obtain ⟨hterm, hothers⟩ := List.forall_mem_cons.mp hs
    rw [List.flatMap_cons, run_append]
    have hnot : term ∉ terms := fun hmem =>
      (List.nodup_append.mp hn).2.2 term hmem term List.mem_cons_self rfl
    simpa using ih (h.predictor hnot hterm) (by simpa using hn) hothers

theorem Shows.release (h : f.Shows f.predictors g) (hs : ∀ t ∈ f.responseTerm?, t.summands = [t]) :
    g.run f.releaseEdits = f := by
  unfold releaseEdits
  cases hf : f.response with
  | none =>
    have hnone : f.releasedTerm? = none := by rw [releasedTerm?, hf]; rfl
    rw [hnone]
    exact Formula.ext (by simp [run, h.response, hf]) h.predictors
  | some r =>
    obtain ⟨term, released⟩ := r
    have hterm : term.summands = [term] := hs term (by rw [responseTerm?, hf]; rfl)
    cases released with
    | false =>
      have hnone : f.releasedTerm? = none := by simp [releasedTerm?, hf]
      rw [hnone]
      exact Formula.ext (by simp [run, h.response, hf]) h.predictors
    | true =>
      rw [(releasedTerm?_eq_some_iff hf).mpr ⟨rfl, rfl⟩]
      by_cases hmem : term ∈ f.predictors
      · simp only [if_pos hmem]
        exact Formula.ext (by simp [run, h.response, hf, hmem]) h.predictors
      · simp only [if_neg hmem]
        obtain ⟨herase, hresponse⟩ := erase_insert_of_not_mem (h.predictors ▸ hmem)
        rw [run_cons, run_cons, edit_add_of_summands hterm, edit_remove_of_summands hterm]
        refine Formula.ext (hresponse.trans ?_) (herase.trans h.predictors)
        rw [h.response, hf]
        simp [Response.remove]

/-- The printed edits lead from the response alone to the formula. -/
theorem run_printedEdits (h : f.Regular IsPlain) :
    (ofResponse f.responseTerm?).run f.printedEdits = f := by
  have hs : ∀ t ∈ f.predictors, t.summands = [t] := fun t ht => (h.predictors t ht).summands
  have hr : ∀ t ∈ f.responseTerm?, t.summands = [t] := fun t ht => (h.response t ht).summands
  have hshows : f.Shows f.predictors ((ofResponse f.responseTerm?).run f.rightEdits) := by
    unfold rightEdits
    split
    · next hp =>
      rw [hp]
      exact f.shows_ofResponse
    · simpa using f.shows_ofResponse.predictors_append (by simpa using f.nodup) hs
  rw [printedEdits, run_append]
  exact hshows.release hr

theorem parse_render_of_regular (h : f.Regular IsPlain) : parse f.render = .ok f := by
  refine parse_eq_ok_iff.mpr ⟨f.responseTerm?, f.printedEdits, ?_, run_printedEdits h⟩
  rw [toList_render]
  exact writesFormula_chars h

end ModelFormula.Formula
