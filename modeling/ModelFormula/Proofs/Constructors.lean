import ModelFormula.Proofs.Expressible

/-! # Terms made by constructors

The constructors dissolve interactions in interactions and unwrap single operands. Whatever they
make, nested in any way, is in normal form, and of the terms that a crossing in normal form stands
for, its operands alone can be crossings.
-/

namespace ModelFormula

namespace Term

variable {t u : Term} {operands terms : List Term}

/-- The terms that the constructors make, nested in any way. -/
inductive Built : Term → Prop where

  | column (name : String) : Built (.variable name)

  | function (name : String) {arg : Term} : Built arg → Built (.function name arg)

  | interaction {operands : List Term} : (∀ t ∈ operands, Built t) →
      Built (interactionOf operands)

  | crossing {operands : List Term} : (∀ t ∈ operands, Built t) → Built (crossingOf operands)

  | dot : Built .dot

  | intercept : Built .intercept

/-- The terms in which no operand is alone and no operand of an interaction is an interaction. -/
inductive Normal : Term → Prop where

  | column (name : String) : Normal (.variable name)

  | function (name : String) {arg : Term} : Normal arg → Normal (.function name arg)

  | interaction {operands : List Term} : operands.length ≠ 1 →
      (∀ t ∈ operands, t.factors = [t]) → (∀ t ∈ operands, Normal t) →
      Normal (.interaction operands)

  | crossing {operands : List Term} : operands.length ≠ 1 → (∀ t ∈ operands, Normal t) →
      Normal (.crossing operands)

  | dot : Normal .dot

  | intercept : Normal .intercept

namespace Normal

theorem of_mem_factors (h : Normal t) (hu : u ∈ t.factors) : u.factors = [u] ∧ Normal u := by
  by_cases ht : ∃ operands, t = .interaction operands
  · obtain ⟨operands, rfl⟩ := ht
    cases h with
    | interaction _ hflat hnormal => exact ⟨hflat u hu, hnormal u hu⟩
  · rw [not_exists] at ht
    have hfactors : t.factors = [t] := by
      cases t <;> first | rfl | exact absurd rfl (ht _)
    rw [hfactors, List.mem_singleton] at hu
    subst hu
    exact ⟨hfactors, h⟩

theorem interactionOf (h : ∀ t ∈ operands, Normal t) : Normal (interactionOf operands) := by
  have hall : ∀ u ∈ operands.flatMap factors, u.factors = [u] ∧ Normal u := by
    intro u hu
    obtain ⟨t, ht, hu⟩ := List.mem_flatMap.mp hu
    exact (h t ht).of_mem_factors hu
  unfold Term.interactionOf
  split
  · next single hs => exact (hall single (by simp [hs])).2
  · next hsingle =>
    refine .interaction ?_ (fun t ht => (hall t ht).1) fun t ht => (hall t ht).2
    intro hlength
    obtain ⟨single, hs⟩ := List.length_eq_one_iff.mp hlength
    exact hsingle single hs

theorem crossingOf (h : ∀ t ∈ operands, Normal t) : Normal (crossingOf operands) := by
  have hall : ∀ t ∈ operands.eraseDups, Normal t :=
    fun t ht => h t (List.mem_eraseDups.mp ht)
  unfold Term.crossingOf
  split
  · next single hs => exact hall single (by simp [hs])
  · next hsingle =>
    refine .crossing ?_ hall
    intro hlength
    obtain ⟨single, hs⟩ := List.length_eq_one_iff.mp hlength
    exact hsingle single hs

end Normal

theorem Built.normal (h : Built t) : Normal t := by
  induction h with
  | column name => exact .column name
  | function name _ ih => exact .function name ih
  | interaction _ ih => exact .interactionOf ih
  | crossing _ ih => exact .crossingOf ih
  | dot => exact .dot
  | intercept => exact .intercept

theorem mem_of_interactionOf_eq_crossing (h : ∀ t ∈ operands, Normal t)
    (he : interactionOf operands = .crossing terms) : .crossing terms ∈ operands := by
  unfold interactionOf at he
  split at he
  · next single hs =>
    subst he
    obtain ⟨t, ht, hmem⟩ : ∃ t ∈ operands, .crossing terms ∈ t.factors :=
      List.mem_flatMap.mp (by simp [hs])
    cases t with
    | interaction inner =>
      -- The operand would be an interaction of the crossing alone.
      have hsub : inner.Sublist (operands.flatMap factors) :=
        List.sublist_flatten_of_mem (List.mem_map_of_mem ht)
      have hlength : inner.length ≤ 1 := by simpa [hs] using hsub.length_le
      have hpos : 0 < inner.length := List.length_pos_of_mem hmem
      cases h _ ht with
      | interaction hl => omega
    | «variable» | function | crossing | dot | intercept =>
      rwa [List.mem_singleton.mp hmem]
  · cases he

theorem mem_crossingTerms_of_mem (hu : u ∈ operands) (h : u.factors = [u]) :
    u ∈ crossingTerms operands := by
  obtain ⟨i, hi, rfl⟩ := List.mem_iff_getElem.mp hu
  rw [crossingTerms, List.mem_eraseDups]
  refine List.mem_flatMap.mpr ⟨1, List.mem_range'_1.mpr (by omega), ?_⟩
  refine List.mem_map.mpr ⟨[i], mem_selectionsFrom_iff.mpr (by simpa using hi), ?_⟩
  have hpick : pick operands [i] = [operands[i]] := by simp [pick, hi]
  rw [hpick, interactionOf, List.flatMap_singleton, h]

/-- A crossing is added or removed with a term only as an operand of a crossing. -/
theorem Normal.crossing_mem_summands_iff (h : Normal t) : .crossing terms ∈ t.summands ↔
    ∃ operands, t = .crossing operands ∧ .crossing terms ∈ operands := by
  constructor
  · intro hmem
    cases h with
    | @crossing operands _ hnormal =>
      obtain ⟨ts, -, hsub, he⟩ := exists_of_mem_crossingTerms hmem
      have hts := mem_of_interactionOf_eq_crossing (fun t ht => hnormal t (hsub t ht)) he.symm
      exact ⟨operands, rfl, hsub _ hts⟩
    | column | function | interaction | dot | intercept => cases List.mem_singleton.mp hmem
  · rintro ⟨operands, rfl, hmem⟩
    exact mem_crossingTerms_of_mem hmem rfl

/-! ## What is collected from all operands -/

section Collect

variable {α : Type} {collect : Term → List α} {a : α}

theorem collect_interactionOf
    (h : ∀ operands, collect (.interaction operands) = operands.flatMap collect)
    (operands : List Term) : collect (interactionOf operands) = operands.flatMap collect := by
  have hfactors : ∀ t : Term, t.factors.flatMap collect = collect t := by
    intro t
    cases t with
    | interaction operands => rw [factors, h]
    | _ => simp [factors]
  have hall : (operands.flatMap factors).flatMap collect = operands.flatMap collect := by
    simp only [List.flatMap_assoc, hfactors]
  unfold interactionOf
  split
  · next single hs => rw [← hall, hs, List.flatMap_singleton]
  · rw [h, hall]

/-- The constructor of crossings collects the same, though repeats only once. -/
theorem mem_collect_crossingOf
    (h : ∀ operands, collect (.crossing operands) = operands.flatMap collect) :
    a ∈ collect (crossingOf operands) ↔ a ∈ operands.flatMap collect := by
  have hdistinct : a ∈ operands.eraseDups.flatMap collect ↔ a ∈ operands.flatMap collect := by
    simp only [List.mem_flatMap, List.mem_eraseDups]
  unfold crossingOf
  split
  · next single hs => rw [← hdistinct, hs, List.flatMap_singleton]
  · rw [h, hdistinct]

end Collect

/-! ## Terms that the grammar can write -/

variable {callee : String → Prop}

theorem Expressible.built (h : Expressible callee t) : Built t := by
  induction h with
  | column => exact .column _
  | function _ _ ih => exact .function _ ih
  | interaction hl hf _ ih =>
    rw [← interactionOf_eq hl hf]
    exact .interaction ih

theorem Editable.built (h : Editable callee t) : Built t := by
  cases h with
  | listable h =>
    cases h with
    | dot => exact .dot
    | intercept => exact .intercept
    | expressible h => exact h.built
  | crossing _ h => exact .crossing fun t ht => (h t ht).built

end Term

end ModelFormula
