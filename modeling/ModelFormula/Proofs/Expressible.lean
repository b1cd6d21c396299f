import ModelFormula.Proofs.Edits

/-! # Expressible terms

The terms that the grammar can write inside an item, and the formulas made of them. A parameter
says which names a function may have: a text may call any name between backticks, but only plain
names are printed so that they can be read back.
-/

namespace ModelFormula

section Selections

variable {start n k i : Nat} {s : List Nat}

/-- The selections of one size are the increasing lists of this length. -/
theorem mem_selectionsFrom_iff : s ∈ selectionsFrom start n k ↔
    s.length = k ∧ s.Pairwise (· < ·) ∧ ∀ i ∈ s, start ≤ i ∧ i < start + n := by
  fun_induction selectionsFrom start n k generalizing s with
  | case1 => cases s <;> simp
  | case2 start k =>
    cases s with
    | nil => simp
    | cons i s =>
      simp only [List.not_mem_nil, false_iff]
      rintro ⟨-, -, h⟩
      have := h i List.mem_cons_self
      omega
  | case3 start n k ih₁ ih₂ =>
    rw [List.mem_append, List.mem_map, ih₂]
    constructor
    · rintro (⟨s, hs, rfl⟩ | ⟨hl, hp, hb⟩)
      · obtain ⟨hl, hp, hb⟩ := ih₁.mp hs
        refine ⟨by rw [List.length_cons, hl], List.pairwise_cons.mpr ⟨?_, hp⟩, ?_⟩
        · intro i hi
          exact (hb i hi).1
        · rw [List.forall_mem_cons]
          refine ⟨by omega, fun i hi => ?_⟩
          have := hb i hi
          omega
      · refine ⟨hl, hp, fun i hi => ?_⟩
        have := hb i hi
        omega
    · rintro ⟨hl, hp, hb⟩
      cases s with
      | nil => cases hl
      | cons i s =>
        rw [List.pairwise_cons] at hp
        rw [List.forall_mem_cons] at hb
        -- The first position is the start, or the start is not selected at all.
        by_cases hi : i = start
        · left
          subst hi
          refine ⟨s, ih₁.mpr ⟨Nat.succ.inj hl, hp.2, fun j hj => ?_⟩, rfl⟩
          have hlt := hp.1 j hj
          have := hb.2 j hj
          omega
        · right
          refine ⟨hl, List.pairwise_cons.mpr hp, ?_⟩
          refine List.forall_mem_cons.mpr ⟨by omega, fun j hj => ?_⟩
          have hlt := hp.1 j hj
          have := hb.2 j hj
          omega

theorem length_of_mem_selectionsFrom (h : s ∈ selectionsFrom start n k) : s.length = k :=
  (mem_selectionsFrom_iff.mp h).1

theorem lt_of_mem_selectionsFrom (h : s ∈ selectionsFrom start n k) (hi : i ∈ s) :
    i < start + n := by
  obtain ⟨-, -, hbounds⟩ := mem_selectionsFrom_iff.mp h
  exact (hbounds i hi).2

end Selections

namespace Term

variable {term u : Term} {operands : List Term} {callee : String → Prop}

theorem pick_subset {selection : List Nat} (h : u ∈ pick operands selection) : u ∈ operands := by
  obtain ⟨i, -, hi⟩ := List.mem_filterMap.mp h
  exact List.mem_of_getElem? hi

theorem pick_ne_nil {n k : Nat} {selection : List Nat} (hn : n ≤ operands.length)
    (h : selection ∈ selections n k) : pick operands selection ≠ [] := by
  unfold selections at h
  split at h
  · cases h
  · next hk =>
    have hlength := length_of_mem_selectionsFrom h
    cases selection with
    | nil => exact absurd hlength.symm hk
    | cons i selection =>
      have hi := lt_of_mem_selectionsFrom h List.mem_cons_self
      have hget : operands[i]? = some operands[i] := List.getElem?_eq_getElem (by omega)
      rw [pick, List.filterMap_cons, hget]
      exact List.cons_ne_nil _ _

theorem exists_of_mem_crossingTerms (h : u ∈ crossingTerms operands) :
    ∃ ts, ts ≠ [] ∧ (∀ t ∈ ts, t ∈ operands) ∧ u = interactionOf ts := by
  rw [crossingTerms, List.mem_eraseDups] at h
  obtain ⟨size, -, h⟩ := List.mem_flatMap.mp h
  obtain ⟨selection, hs, rfl⟩ := List.mem_map.mp h
  exact ⟨_, pick_ne_nil (Nat.le_refl _) hs, fun t ht => pick_subset ht, rfl⟩

def isFactor : Term → Bool
  | .variable _ | .function _ _ => true
  | _ => false

/-- The terms that can be a response or an argument, where `callee` holds of the names of
functions. -/
inductive Expressible (callee : String → Prop) : Term → Prop where

  | column {name : String} : IsName name → Expressible callee (.variable name)

  | function {name : String} {arg : Term} : callee name → Expressible callee arg →
      Expressible callee (.function name arg)

  | interaction {operands : List Term} : 2 ≤ operands.length →
      (∀ t ∈ operands, t.isFactor = true) → (∀ t ∈ operands, Expressible callee t) →
      Expressible callee (.interaction operands)

inductive Listable (callee : String → Prop) : Term → Prop where

  | dot : Listable callee .dot

  | intercept : Listable callee .intercept

  | expressible {term : Term} : Expressible callee term → Listable callee term

inductive Editable (callee : String → Prop) : Term → Prop where

  | listable {term : Term} : Listable callee term → Editable callee term

  | crossing {operands : List Term} : operands ≠ [] → (∀ t ∈ operands, Expressible callee t) →
      Editable callee (crossingOf operands)

theorem factors_of_isFactor (h : term.isFactor = true) : term.factors = [term] := by
  cases term <;> first | rfl | cases h

theorem flatMap_factors (h : ∀ t ∈ operands, t.isFactor = true) :
    operands.flatMap factors = operands := by
  induction operands with
  | nil => rfl
  | cons term operands ih =>
    obtain ⟨hterm, hrest⟩ := List.forall_mem_cons.mp h
    rw [List.flatMap_cons, factors_of_isFactor hterm, ih hrest, List.singleton_append]

/-- An interaction of two or more factors is dissolved nowhere. -/
theorem interactionOf_eq (hl : 2 ≤ operands.length) (h : ∀ t ∈ operands, t.isFactor = true) :
    interactionOf operands = .interaction operands := by
  unfold interactionOf
  rw [flatMap_factors h]
  split
  · simp at hl
  · rfl

namespace Expressible

theorem isPlaceholder (h : Expressible callee term) : term.isPlaceholder = false := by
  cases h <;> rfl

theorem factors_ne_nil (h : Expressible callee term) : term.factors ≠ [] := by
  cases h with
  | column => exact List.cons_ne_nil _ _
  | function => exact List.cons_ne_nil _ _
  | interaction hl =>
    rintro rfl
    simp at hl

theorem of_mem_factors (h : Expressible callee term) (hu : u ∈ term.factors) :
    u.isFactor = true ∧ Expressible callee u := by
  cases h with
  | column hn =>
    rw [List.mem_singleton.mp hu]
    exact ⟨rfl, .column hn⟩
  | function hn ha =>
    rw [List.mem_singleton.mp hu]
    exact ⟨rfl, .function hn ha⟩
  | interaction _ hf he => exact ⟨hf u hu, he u hu⟩

theorem interactionOf (hne : operands ≠ []) (h : ∀ t ∈ operands, Expressible callee t) :
    Expressible callee (interactionOf operands) := by
  have hall : ∀ t ∈ operands.flatMap factors, t.isFactor = true ∧ Expressible callee t := by
    intro t ht
    obtain ⟨o, ho, ht⟩ := List.mem_flatMap.mp ht
    exact (h o ho).of_mem_factors ht
  have hflat : operands.flatMap factors ≠ [] := by
    obtain ⟨o, os, rfl⟩ := List.exists_cons_of_ne_nil hne
    rw [List.flatMap_cons]
    exact List.append_ne_nil_of_left_ne_nil (h o List.mem_cons_self).factors_ne_nil _
  unfold Term.interactionOf
  split
  · next single hs => exact (hall single (by simp [hs])).2
  · next hsingle =>
    refine .interaction ?_ (fun t ht => (hall t ht).1) (fun t ht => (hall t ht).2)
    match operands.flatMap factors, hflat, hsingle with
    | [], hne, _ => exact absurd rfl hne
    | [t], _, hs => exact absurd rfl (hs t)
    | _ :: _ :: _, _, _ => simp

theorem summands (h : Expressible callee term) : term.summands = [term] := by
  cases h <;> rfl

end Expressible

theorem Listable.summands (h : Listable callee term) : term.summands = [term] := by
  cases h with
  | dot => rfl
  | intercept => rfl
  | expressible h => exact h.summands

theorem Editable.of_mem_summands (h : Editable callee term) (hu : u ∈ term.summands) :
    Listable callee u := by
  cases h with
  | listable h =>
    rw [h.summands, List.mem_singleton] at hu
    exact hu ▸ h
  | @crossing operands hne h =>
    unfold crossingOf at hu
    split at hu
    · next single hs =>
      have hsingle : Expressible callee single := h single (by
        rw [← List.mem_eraseDups, hs]
        exact List.mem_singleton_self _)
      rw [hsingle.summands, List.mem_singleton] at hu
      exact .expressible (hu ▸ hsingle)
    · obtain ⟨ts, hts, hsub, rfl⟩ := exists_of_mem_crossingTerms hu
      refine .expressible (.interactionOf hts fun t ht => h t ?_)
      exact List.mem_eraseDups.mp (hsub t ht)

end Term

end ModelFormula
