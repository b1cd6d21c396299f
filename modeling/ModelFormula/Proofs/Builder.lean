import ModelFormula.Proofs.Replay
import ModelFormula.Proofs.Results

/-! # Building formulas

Formulas are also built step by step: by edits, by another response and by resolving the wildcard
against a schema. As long as all names can be written, whatever is built is read back from its
text.
-/

namespace ModelFormula

inductive Step where

  | edit (edit : Edit)

  | respond (response : Option Term)

  | resolve (schema : Schema)

/-- The steps that bring in nothing but terms and columns that the grammar can write. -/
def Step.Regular (callee : String → Prop) : Step → Prop
  | .edit e => e.Regular callee
  | .respond response => ∀ t ∈ response, t.Expressible callee
  | .resolve schema => ∀ name ∈ schema.names, IsName name

namespace Formula

def step (f : Formula) : Step → Except FormulaError Formula
  | .edit e => .ok (f.edit e)
  | .respond response => .ok (f.withResponse response)
  | .resolve schema => f.expand schema

/-- The formula after all steps, unless a schema does not fit. -/
def build (f : Formula) : List Step → Except FormulaError Formula
  | [] => .ok f
  | step :: steps => do build (← f.step step) steps

variable {callee : String → Prop} {f g : Formula} {first : Step} {steps : List Step}

theorem Regular.step (h : f.Regular callee) (hs : first.Regular callee)
    (hg : f.step first = .ok g) : g.Regular callee := by
  cases first with
  | edit e =>
    obtain rfl : f.edit e = g := by simpa [Formula.step] using hg
    exact h.edit hs
  | respond response =>
    obtain rfl : f.withResponse response = g := by simpa [Formula.step] using hg
    exact h.withResponse hs
  | resolve schema => exact h.expand hs hg

theorem build_cons_eq_ok_iff : f.build (first :: steps) = .ok g ↔
    ∃ next, f.step first = .ok next ∧ next.build steps = .ok g := by
  rw [build]
  exact bind_eq_ok_iff

theorem Regular.build (h : f.Regular callee) (hs : ∀ step ∈ steps, step.Regular callee)
    (hg : f.build steps = .ok g) : g.Regular callee := by
  induction steps generalizing f with
  | nil =>
    obtain rfl : f = g := by simpa [Formula.build] using hg
    exact h
  | cons first steps ih =>
    obtain ⟨hfirst, hsteps⟩ := List.forall_mem_cons.mp hs
    obtain ⟨next, hnext, hg⟩ := build_cons_eq_ok_iff.mp hg
    exact ih (h.step hfirst hnext) hsteps hg

/-- Whatever is built from writable terms is read back from its text, with its release and the
order of its predictors. -/
theorem parse_render_of_build {response : Option Term}
    (hr : ∀ t ∈ response, t.Expressible IsPlain) (hs : ∀ step ∈ steps, step.Regular IsPlain)
    (hf : (ofResponse response).build steps = .ok f) : parse f.render = .ok f :=
  parse_render_of_regular ((Regular.ofResponse hr).build hs hf)

/-- A released response that stands behind the predictors, among them a crossing. -/
theorem parse_render_of_released_build :
    ∃ f : Formula, f.render = "y ~ a + log(`b c`) + a::log(`b c`) + y - y" ∧
      parse f.render = .ok f := by
  have ha : (Term.variable "a").Expressible IsPlain := .column (by decide)
  have hy : (Term.variable "y").Expressible IsPlain := .column (by decide)
  have hlog : (Term.function "log" (.variable "b c")).Expressible IsPlain :=
    .function (by decide) (.column (by decide))
  have hr : ∀ t ∈ some (Term.variable "y"), t.Expressible IsPlain := by
    rintro t ⟨⟩
    exact hy
  have hedit : (Term.variable "y").Editable IsPlain := .listable (.expressible hy)
  have hcrossing : (Term.crossingOf [.variable "a", .function "log" (.variable "b c")]).Editable
      IsPlain := by
    refine .crossing (List.cons_ne_nil _ _) fun t ht => ?_
    simp only [List.mem_cons, List.not_mem_nil, or_false] at ht
    rcases ht with rfl | rfl
    · exact ha
    · exact hlog
  have hs : ∀ step ∈ [Step.edit (.add (.variable "y")), .edit (.remove (.variable "y")),
      .edit (.add .dot), .resolve ⟨[⟨"y", .f64⟩, ⟨"a", .i32⟩], by decide, by
        simp [DataType.LevelsOk, DataType.levels?]⟩, .respond (some (.variable "y")),
      .edit (.add (.crossingOf [.variable "a", .function "log" (.variable "b c")]))],
      step.Regular IsPlain := by
    intro step hstep
    simp only [List.mem_cons, List.not_mem_nil, or_false] at hstep
    rcases hstep with rfl | rfl | rfl | rfl | rfl | rfl
    · exact hedit
    · exact hedit
    · exact Term.Editable.listable .dot
    · show ∀ name ∈ ["y", "a"], IsName name
      decide
    · exact hr
    · exact hcrossing
  refine ⟨⟨some ⟨.variable "y", true⟩, [.variable "a", .function "log" (.variable "b c"),
    .interaction [.variable "a", .function "log" (.variable "b c")]], by decide⟩, by decide, ?_⟩
  exact parse_render_of_build hr hs rfl

end Formula

end ModelFormula
