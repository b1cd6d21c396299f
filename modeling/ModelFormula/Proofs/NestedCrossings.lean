import ModelFormula.Proofs.Builder
import ModelFormula.Proofs.Constructors
import ModelFormula.Proofs.History

/-! # Crossings among the predictors

A crossing is added as the terms that it stands for, and its operands are among them. An operand
that is a crossing itself therefore becomes a predictor as it is, and it stays one until a crossing
that has it as an operand is removed. In no other way does a crossing become a predictor.
-/

namespace ModelFormula

def Step.Built : Step → Prop
  | .edit (.add t) | .edit (.remove t) => t.Built
  | .respond response => ∀ t ∈ response, t.Built
  | .resolve _ => True

/-- The step adds a crossing that has the term as an operand. -/
def Step.Nests (u : Term) (step : Step) : Prop :=
  ∃ operands, step = .edit (.add (.crossing operands)) ∧ u ∈ operands

def Step.Unnests (u : Term) (step : Step) : Prop :=
  ∃ operands, step = .edit (.remove (.crossing operands)) ∧ u ∈ operands

namespace Formula

/-- A formula that is reached by a history of steps. The first steps make up a new formula, one that
has all other columns or only the given terms as predictors, or one that is read from a text. -/
inductive Reached : List Step → Formula → Prop where

  | ofResponse {response : Option Term} : (∀ t ∈ response, t.Built) →
      Reached [.respond response] (ofResponse response)

  | againstOthers (name : String) :
      Reached [.respond (some (.variable name)), .edit (.add .dot)] (againstOthers name)

  | oneSided {terms : List Term} : (∀ t ∈ terms, t.Built) →
      Reached (terms.map fun t => .edit (.add t)) (oneSided terms)

  | parse {text : String} {f : Formula} {response : Option Term} {edits : List Edit} :
      parse text = .ok f → script text.toList = .ok (response, edits) →
      Reached (.respond response :: edits.map .edit) f

  | step {steps : List Step} {f g : Formula} {next : Step} : Reached steps f → next.Built →
      f.step next = .ok g → Reached (steps ++ [next]) g

/-- Some step adds a crossing that has the term as an operand, and no later step removes one. -/
def Stays (steps : List Step) (u : Term) : Prop :=
  ∃ before step after, steps = before ++ step :: after ∧ step.Nests u ∧
    ∀ later ∈ after, ¬ later.Unnests u

variable {f g : Formula} {u : Term} {operands terms : List Term} {steps : List Step}
  {next last : Step} {edit : Edit} {edits : List Edit}

theorem not_stays_nil : ¬ Stays [] u := by
  rintro ⟨before, step, after, h, -⟩
  simp at h

theorem stays_append_iff :
    Stays (steps ++ [last]) u ↔ last.Nests u ∨ (Stays steps u ∧ ¬ last.Unnests u) := by
  constructor
  · rintro ⟨before, step, after, h, hn, hafter⟩
    rcases List.eq_nil_or_concat' after with rfl | ⟨after, other, rfl⟩
    · obtain ⟨rfl, he⟩ := List.append_inj' h rfl
      cases he
      exact .inl hn
    · rw [← List.cons_append, ← List.append_assoc] at h
      obtain ⟨rfl, he⟩ := List.append_inj' h rfl
      cases he
      rw [List.forall_mem_append, List.forall_mem_singleton] at hafter
      exact .inr ⟨⟨before, step, after, rfl, hn, hafter.1⟩, hafter.2⟩
  · rintro (hn | ⟨⟨before, step, after, rfl, hn, hafter⟩, hlast⟩)
    · exact ⟨steps, last, [], rfl, hn, nofun⟩
    · refine ⟨before, step, after ++ [last], by simp, hn, ?_⟩
      rw [List.forall_mem_append, List.forall_mem_singleton]
      exact ⟨hafter, hlast⟩

theorem mem_foldl_insert_iff :
    u ∈ (terms.foldl insert f).predictors ↔ u ∈ f.predictors ∨ u ∈ terms := by
  induction terms generalizing f with
  | nil => simp
  | cons t terms ih => rw [List.foldl_cons, ih, mem_insert, List.mem_cons, or_assoc]

theorem crossing_mem_resolveDot_iff {s : Schema} :
    .crossing operands ∈ (f.resolveDot s).predictors ↔ .crossing operands ∈ f.predictors := by
  have hresolved (t : Term) : .crossing operands ∈ f.resolved s t ↔ .crossing operands = t := by
    unfold resolved
    split
    · next h => simp [h, mem_others]
    · exact List.mem_singleton
  simp [resolveDot, List.mem_flatMap, hresolved]

theorem not_mem_ofResponse_iff (response : Option Term) :
    .crossing operands ∈ (Formula.ofResponse response).predictors ↔
      Stays [.respond response] (.crossing operands) := by
  rw [← List.nil_append [Step.respond response], stays_append_iff]
  simp [Formula.ofResponse, not_stays_nil, Step.Nests]

/-- What one step does to the crossings among the predictors. -/
theorem crossing_mem_step_iff (hb : next.Built) (h : f.step next = .ok g) :
    .crossing operands ∈ g.predictors ↔ next.Nests (.crossing operands) ∨
      (.crossing operands ∈ f.predictors ∧ ¬ next.Unnests (.crossing operands)) := by
  cases next with
  | edit e =>
    obtain rfl := Except.ok.inj h
    cases e with
    | add t =>
      have hnests : Step.Nests (.crossing operands) (.edit (.add t)) ↔
          .crossing operands ∈ t.summands := by
        rw [hb.normal.crossing_mem_summands_iff]
        simp [Step.Nests]
      have hunnests : ¬ Step.Unnests (.crossing operands) (.edit (.add t)) := by
        simp [Step.Unnests]
      rw [hnests, and_iff_left hunnests, or_comm]
      exact mem_foldl_insert_iff
    | remove t =>
      have hunnests : Step.Unnests (.crossing operands) (.edit (.remove t)) ↔
          .crossing operands ∈ t.summands := by
        rw [hb.normal.crossing_mem_summands_iff]
        simp [Step.Unnests]
      have hnests : ¬ Step.Nests (.crossing operands) (.edit (.remove t)) := by
        simp [Step.Nests]
      rw [hunnests, or_iff_right hnests]
      exact mem_foldl_erase_iff
  | respond response =>
    obtain rfl := Except.ok.inj h
    simp [Step.Nests, Step.Unnests, withResponse]
  | resolve s =>
    obtain ⟨rfl, -⟩ := expand_eq_ok_iff.mp h
    simp [crossing_mem_resolveDot_iff, Step.Nests, Step.Unnests]

/-- What a run of edits does to the crossings among the predictors. -/
theorem crossing_mem_run_iff (hb : ∀ e ∈ edits, Step.Built (.edit e))
    (hf : .crossing operands ∈ f.predictors ↔ Stays steps (.crossing operands)) :
    .crossing operands ∈ (f.run edits).predictors ↔
      Stays (steps ++ edits.map .edit) (.crossing operands) := by
  induction edits generalizing f steps with
  | nil => simpa [run] using hf
  | cons e edits ih =>
    obtain ⟨he, hedits⟩ := List.forall_mem_cons.mp hb
    have hstep : .crossing operands ∈ (f.edit e).predictors ↔
        Stays (steps ++ [.edit e]) (.crossing operands) := by
      rw [crossing_mem_step_iff he rfl, stays_append_iff, hf]
    rw [run_cons, ih hedits hstep, List.append_assoc, List.map_cons, List.singleton_append]

/-- A crossing is a predictor exactly as long as it stays: some crossing has been added that has it
as an operand, and no crossing that has it as an operand has been removed since. -/
theorem crossing_mem_predictors_iff (h : Reached steps f) (operands : List Term) :
    .crossing operands ∈ f.predictors ↔ Stays steps (.crossing operands) := by
  induction h with
  | @ofResponse response _ => exact not_mem_ofResponse_iff response
  | againstOthers name =>
    have hbuilt : ∀ e ∈ [Edit.add .dot], Step.Built (.edit e) := by
      rintro e (_ | ⟨_, ⟨⟩⟩)
      exact Term.Built.dot
    exact crossing_mem_run_iff hbuilt (not_mem_ofResponse_iff _)
  | @oneSided terms hterms =>
    have hbuilt : ∀ e ∈ terms.map Edit.add, Step.Built (.edit e) := by
      rintro e he
      obtain ⟨t, ht, rfl⟩ := List.mem_map.mp he
      exact hterms t ht
    have hnone : .crossing operands ∈ ({} : Formula).predictors ↔ Stays [] (.crossing operands) :=
      iff_of_false List.not_mem_nil not_stays_nil
    have hrun := crossing_mem_run_iff hbuilt hnone
    rwa [run, List.foldl_map, List.nil_append, List.map_map] at hrun
  | @parse text f response edits hf hs =>
    obtain ⟨-, hedits⟩ := Grammar.regular_of_writesFormula (script_eq_ok_iff.mp hs)
    have hbuilt : ∀ e ∈ edits, Step.Built (.edit e) := by
      intro e he
      cases e <;> exact (hedits _ he).built
    obtain rfl : (ofResponse response).run edits = f := by
      simpa [parse, hs, Except.map] using hf
    exact crossing_mem_run_iff hbuilt (not_mem_ofResponse_iff response)
  | step _ hb hg ih => rw [crossing_mem_step_iff hb hg, stays_append_iff, ih]

theorem Reached.add (h : Reached steps f) {t : Term} (ht : t.Built) :
    Reached (steps ++ [.edit (.add t)]) (f.add t) := by
  have hb : Step.Built (.edit (.add t)) := ht
  exact h.step hb rfl

theorem Reached.remove (h : Reached steps f) {t : Term} (ht : t.Built) :
    Reached (steps ++ [.edit (.remove t)]) (f.remove t) := by
  have hb : Step.Built (.edit (.remove t)) := ht
  exact h.step hb rfl

theorem Reached.expand (h : Reached steps f) {s : Schema} (hg : f.expand s = .ok g) :
    Reached (steps ++ [.resolve s]) g := by
  have hb : Step.Built (.resolve s) := trivial
  exact h.step hb hg

/-- Of two crossings that are operands of added crossings one stays, also when the wildcard is
resolved, and the other one goes with the crossing that it is an operand of. -/
theorem crossing_mem_predictors_after_expand :
    ∃ steps f, Reached steps f ∧
      f.predictors = [.variable "d", .crossing [.variable "a", .variable "b"]] ∧
      Stays steps (.crossing [.variable "a", .variable "b"]) ∧
      ¬ Stays steps (.crossing [.variable "b", .variable "c"]) := by
  let kept := Term.crossingOf [.variable "a", .variable "b"]
  let gone := Term.crossingOf [.variable "b", .variable "c"]
  let s : Schema := ⟨[⟨"y", .f64⟩, ⟨"a", .f64⟩, ⟨"b", .f64⟩, ⟨"d", .f64⟩], by decide, by
    simp [DataType.LevelsOk, DataType.levels?]⟩
  let y : Response := ⟨.variable "y", false⟩
  have hc : (Term.variable "c").Built := .column "c"
  have hkept : kept.Built := .crossing (by simp [Term.Built.column])
  have hgone : gone.Built := .crossing (by simp [Term.Built.column])
  have hcross {t : Term} (ht : t.Built) : (Term.crossingOf [t, .variable "c"]).Built :=
    .crossing (by simp [ht, hc])
  have hjoined : (Term.interactionOf [kept, .variable "c"]).Built :=
    .interaction (by simp [hkept, hc])
  let start : Formula := ⟨some y, [.dot], by decide⟩
  let last : Formula := ⟨some y, [.dot, kept], by decide⟩
  have hparse : parse "y ~ ." = .ok start := rfl
  have hstart : Reached [.respond (some y.term), .edit (.add .dot)] start := .parse hparse rfl
  have hlast := (((hstart.add (hcross hkept)).remove hjoined).add (hcross hgone)).remove
    (hcross hgone)
  have heq : (((start.add (.crossingOf [kept, .variable "c"])).remove
      (.interactionOf [kept, .variable "c"])).add (.crossingOf [gone, .variable "c"])).remove
        (.crossingOf [gone, .variable "c"]) = last := by decide +kernel
  rw [heq] at hlast
  have hexpand : last.expand s = .ok ⟨some y, [.variable "d", kept], by decide⟩ := rfl
  have h := hlast.expand hexpand
  refine ⟨_, _, h, rfl, ?_, ?_⟩
  · rw [← crossing_mem_predictors_iff h]
    decide
  · rw [← crossing_mem_predictors_iff h]
    decide

/-- A crossing of a crossing leaves the inner one among the predictors. -/
theorem crossing_mem_oneSided : ∃ nested : Term, nested.Built ∧
    Reached [.edit (.add nested)] (oneSided [nested]) ∧
    .crossing [.variable "a", .variable "b"] ∈ (oneSided [nested]).predictors := by
  let inner := Term.crossingOf [.variable "a", .variable "b"]
  have hinner : inner.Built := .crossing (by simp [Term.Built.column])
  have hnested : (Term.crossingOf [inner, .variable "c"]).Built :=
    .crossing (by simp [hinner, Term.Built.column])
  have hreached := Reached.oneSided (List.forall_mem_singleton.mpr hnested)
  exact ⟨_, hnested, hreached, by decide⟩

end Formula

end ModelFormula
