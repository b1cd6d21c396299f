import ModelFormula.Formula.Resolution
import ModelFormula.Proofs.Derivation
import ModelFormula.Proofs.Expressible

/-! # Regular formulas

A formula is regular when its response and its predictors are terms that the grammar can write.
Edits of such terms, another such response and the resolution of the wildcard keep a formula
regular, and every formula that is read from a text is regular.
-/

namespace ModelFormula

variable {callee : String → Prop}

def Edit.Regular (callee : String → Prop) : Edit → Prop
  | .add term | .remove term => term.Editable callee

theorem Edit.Regular.of_mem_summands {edit : Edit} {u : Term} (h : edit.Regular callee)
    (hu : u ∈ edit.summands) : u.Listable callee := by
  cases edit <;> exact Term.Editable.of_mem_summands h hu

namespace Formula

structure Regular (callee : String → Prop) (f : Formula) : Prop where
  response : ∀ t ∈ f.responseTerm?, t.Expressible callee
  predictors : ∀ t ∈ f.predictors, t.Listable callee

namespace Regular

variable {f g : Formula} {term : Term} {e : Edit} {edits : List Edit} {s : Schema}

theorem ofResponse {response : Option Term} (h : ∀ t ∈ response, t.Expressible callee) :
    Regular callee (ofResponse response) where
  response := by simpa using h
  predictors := by
    intro t ht
    cases ht

theorem insert (h : f.Regular callee) (ht : term.Listable callee) :
    (f.insert term).Regular callee where
  response := by simpa using h.response
  predictors := by
    intro u hu
    rcases mem_insert.mp hu with hu | rfl
    · exact h.predictors u hu
    · exact ht

theorem erase (h : f.Regular callee) : (f.erase term).Regular callee where
  response := by simpa using h.response
  predictors := by
    intro u hu
    rw [predictors_erase] at hu
    exact h.predictors u (List.mem_of_mem_erase hu)

theorem edit (h : f.Regular callee) (he : e.Regular callee) : (f.edit e).Regular callee :=
  edit_induction (fun _ hf _ ht => insert hf (he.of_mem_summands ht)) (fun _ hf _ _ => erase hf) h

theorem run (h : f.Regular callee) (he : ∀ e ∈ edits, e.Regular callee) :
    (f.run edits).Regular callee :=
  run_induction (fun _ hf e hm => edit hf (he e hm)) h

theorem withResponse {response : Option Term} (h : f.Regular callee)
    (hr : ∀ t ∈ response, t.Expressible callee) : (f.withResponse response).Regular callee where
  response := by
    intro t ht
    cases response with
    | none => cases ht
    | some u =>
      obtain rfl : u = t := by simpa [Formula.withResponse, responseTerm?] using ht
      exact hr u rfl
  predictors := h.predictors

theorem resolveDot (h : f.Regular callee) (hs : ∀ name ∈ s.names, IsName name) :
    (f.resolveDot s).Regular callee where
  response := h.response
  predictors := by
    intro t ht
    obtain ⟨u, hu, ht⟩ := List.mem_flatMap.mp ht
    unfold resolved at ht
    split at ht
    · obtain ⟨name, hname, -, rfl⟩ := mem_others.mp ht
      exact .expressible (.column (hs name hname))
    · rw [List.mem_singleton.mp ht]
      exact h.predictors u hu

theorem expand (h : f.Regular callee) (hs : ∀ name ∈ s.names, IsName name)
    (hg : f.expand s = .ok g) : g.Regular callee := by
  obtain ⟨rfl, -⟩ := expand_eq_ok_iff.mp hg
  exact h.resolveDot hs

end Regular

end Formula

/-! ## What is read -/

namespace Grammar

open Formula

theorem isName_of_plain {name : String} (h : IsPlain name) : IsName name := by
  unfold IsPlain at h
  cases hn : name.toList with
  | nil => simp [hn, isPlainName] at h
  | cons c cs =>
    simp only [hn, isPlainName, Bool.and_eq_true, List.all_eq_true] at h
    refine ⟨fun e => by simp [e] at hn, fun hq => ?_⟩
    rw [hn] at hq
    rcases List.mem_cons.mp hq with rfl | hq
    · exact absurd h.1 (by decide)
    · exact absurd (h.2 _ hq) (by decide)

theorem isName_of_writes {name : String} {cs : List Char} (h : WritesName name cs) :
    IsName name := by
  cases h with
  | plain h => exact isName_of_plain h
  | quoted h => exact h

theorem expressible_of_crossingOf {operands : List Term}
    (h : ∀ t ∈ operands, t.Expressible callee)
    (hp : (Term.crossingOf operands).isPlaceholder = false) :
    (Term.crossingOf operands).Expressible callee := by
  unfold Term.crossingOf at hp ⊢
  split at hp
  · next single hs =>
    refine h single ?_
    rw [← List.mem_eraseDups, hs]
    exact List.mem_singleton_self _
  · cases hp

mutual

theorem expressible_of_writesFactor : ∀ {term : Term} {cs : List Char}, WritesFactor term cs →
    term.isFactor = true ∧ term.Expressible IsName
  | _, _, .column hn => ⟨rfl, .column (isName_of_writes hn)⟩
  | _, _, .call hn _ _ ha hp _ =>
    ⟨rfl, .function (isName_of_writes hn) ((editable_of_writesTerm ha).2 hp)⟩

theorem expressible_of_writesLinks : ∀ {symbol : List Char} {terms : List Term} {cs : List Char},
    WritesLinks symbol terms cs → ∀ t ∈ terms, t.Expressible IsName
  | _, _, _, .nil => fun _ ht => nomatch ht
  | _, _, _, .cons _ _ hf hl =>
    List.forall_mem_cons.mpr ⟨(expressible_of_writesFactor hf).2, expressible_of_writesLinks hl⟩

theorem editable_of_writesTerm : ∀ {term : Term} {cs : List Char}, WritesTerm term cs →
    term.Editable IsName ∧ (term.isPlaceholder = false → term.Expressible IsName)
  | _, _, .dot => ⟨.listable .dot, fun h => nomatch h⟩
  | _, _, .interaction hf hl => by
    have hall := List.forall_mem_cons.mpr
      ⟨(expressible_of_writesFactor hf).2, expressible_of_writesLinks hl⟩
    have he := Term.Expressible.interactionOf (List.cons_ne_nil _ _) hall
    exact ⟨.listable (.expressible he), fun _ => he⟩
  | _, _, .crossing hf hl => by
    have hall := List.forall_mem_cons.mpr
      ⟨(expressible_of_writesFactor hf).2, expressible_of_writesLinks hl⟩
    exact ⟨.crossing (List.cons_ne_nil _ _) hall, expressible_of_crossingOf hall⟩

end

theorem regular_of_writesItem {sign : Sign} {edit : Edit} {cs : List Char}
    (h : WritesItem sign edit cs) : edit.Regular IsName := by
  cases h with
  | add h => exact (editable_of_writesTerm h).1
  | remove h => exact (editable_of_writesTerm h).1
  | addOne => exact .listable .intercept
  | removeOne => exact .listable .intercept
  | removeZero => exact .listable .intercept
  | addZero => exact .listable .intercept

/-- Each edit of a sequence of items is written somewhere in their text. -/
theorem exists_item_of_mem_items {edits : List Edit} {edit : Edit} {cs : List Char}
    (h : WritesItems edits cs) (he : edit ∈ edits) :
    ∃ sign is, is <:+: cs ∧ WritesItem sign edit is := by
  induction h with
  | nil => cases he
  | @cons sign first edits g₁ g₂ is ds h₁ h₂ hi _ ih =>
    rcases List.mem_cons.mp he with rfl | he
    · exact ⟨sign, is, ⟨g₁ ++ signMark sign :: g₂, ds, by simp⟩, hi⟩
    · obtain ⟨sign', is', hpiece, hi'⟩ := ih he
      have hlater : ds <:+: g₁ ++ signMark sign :: (g₂ ++ (is ++ ds)) :=
        ⟨g₁ ++ signMark sign :: (g₂ ++ is), [], by simp⟩
      exact ⟨sign', is', hpiece.trans hlater, hi'⟩

theorem exists_item_of_mem_right {edits : List Edit} {edit : Edit} {cs : List Char}
    (h : WritesRight edits cs) (he : edit ∈ edits) :
    ∃ sign is, is <:+: cs ∧ WritesItem sign edit is := by
  obtain ⟨sign, ss, first, is, others, ds, -, hi, hs, rfl, rfl⟩ :=
    exists_firstSign_of_writesRight h
  rcases List.mem_cons.mp he with rfl | he
  · exact ⟨sign, is, ⟨ss, ds, by simp⟩, hi⟩
  · obtain ⟨sign', is', hpiece, hi'⟩ := exists_item_of_mem_items hs he
    have hlater : ds <:+: ss ++ (is ++ ds) := ⟨ss ++ is, [], by simp⟩
    exact ⟨sign', is', hpiece.trans hlater, hi'⟩

theorem regular_of_writesRight {edits : List Edit} {cs : List Char} (h : WritesRight edits cs) :
    ∀ e ∈ edits, e.Regular IsName := by
  intro e he
  obtain ⟨sign, is, -, hi⟩ := exists_item_of_mem_right h he
  exact regular_of_writesItem hi

theorem expressible_of_writesLeft {response : Option Term} {cs : List Char}
    (h : WritesLeft response cs) : ∀ t ∈ response, t.Expressible IsName := by
  cases h with
  | none => exact fun _ ht => nomatch ht
  | some ht hp =>
    rintro u ⟨⟩
    exact (editable_of_writesTerm ht).2 hp

theorem regular_of_writesFormula {response : Option Term} {edits : List Edit} {cs : List Char}
    (h : WritesFormula response edits cs) :
    (∀ t ∈ response, t.Expressible IsName) ∧ ∀ e ∈ edits, e.Regular IsName := by
  cases h with
  | mk _ hl _ hr => exact ⟨expressible_of_writesLeft hl, regular_of_writesRight hr⟩

end Grammar

/-- Every formula that is read is regular, where a function may have any name. -/
theorem Formula.regular_of_parse {text : String} {f : Formula} (h : parse text = .ok f) :
    f.Regular IsName := by
  obtain ⟨response, edits, hw, rfl⟩ := parse_eq_ok_iff.mp h
  obtain ⟨hresponse, hedits⟩ := Grammar.regular_of_writesFormula hw
  exact (Regular.ofResponse hresponse).run hedits

end ModelFormula
