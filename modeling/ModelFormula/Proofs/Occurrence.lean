import Mathlib.Logic.Relation
import ModelFormula.Term.Basic

/-! # Occurrence

The terms that occur in a term. Strictly inside it are its parts, their parts, and so on.
The checks that run over a whole term are about these terms.
-/

namespace ModelFormula.Term

variable {s t u : Term} {name : String}

/-- The terms that a term is directly made of. -/
def parts : Term → List Term
  | .function _ arg => [arg]
  | .interaction operands | .crossing operands => operands
  | .variable _ | .dot | .intercept => []

def OccursInside : Term → Term → Prop := Relation.TransGen fun u t => u ∈ t.parts

def OccursIn : Term → Term → Prop := Relation.ReflTransGen fun u t => u ∈ t.parts

theorem sizeOf_lt_of_mem_parts (h : u ∈ t.parts) : sizeOf u < sizeOf t := by
  cases t with
  | function name arg =>
    rw [parts, List.mem_singleton] at h
    subst h
    rw [function.sizeOf_spec]
    omega
  | interaction terms | crossing terms =>
    have hsize := List.sizeOf_lt_of_mem h
    simp [parts] at hsize ⊢
    omega
  | «variable» | dot | intercept => cases h

/-- A property holds of all terms if it passes from the parts of a term to the term. -/
theorem induction_parts {P : Term → Prop} (h : ∀ t, (∀ u ∈ t.parts, P u) → P t)
    (t : Term) : P t :=
  h t fun u _ => induction_parts h u
termination_by sizeOf t
decreasing_by exact sizeOf_lt_of_mem_parts ‹_›

theorem occursInside_iff : s.OccursInside t ↔ ∃ u ∈ t.parts, s.OccursIn u := by
  unfold OccursInside OccursIn
  rw [Relation.TransGen.tail'_iff]
  exact ⟨fun ⟨u, hs, hu⟩ => ⟨u, hu, hs⟩, fun ⟨u, hu, hs⟩ => ⟨u, hs, hu⟩⟩

theorem occursIn_iff : s.OccursIn t ↔ s = t ∨ s.OccursInside t := by
  unfold OccursInside OccursIn
  rw [Relation.reflTransGen_iff_eq_or_transGen, eq_comm]

theorem hidesPlaceholder_eq (t : Term) : t.hidesPlaceholder =
    t.parts.any fun u => u.isPlaceholder || u.hidesPlaceholder := by
  cases t with
  | function name arg => simp [hidesPlaceholder, parts]
  | interaction terms | crossing terms => exact holdPlaceholder_eq terms
  | «variable» | dot | intercept => rfl

theorem hidesPlaceholder_iff :
    t.hidesPlaceholder = true ↔ ∃ u : Term, u.OccursInside t ∧ u.isPlaceholder = true := by
  induction t using induction_parts with
  | h t ih =>
    rw [hidesPlaceholder_eq, List.any_eq_true]
    constructor
    · rintro ⟨v, hv, h⟩
      rw [Bool.or_eq_true] at h
      rcases h with h | h
      · exact ⟨v, occursInside_iff.mpr ⟨v, hv, occursIn_iff.mpr (.inl rfl)⟩, h⟩
      · obtain ⟨u, hu, h⟩ := (ih v hv).mp h
        exact ⟨u, occursInside_iff.mpr ⟨v, hv, occursIn_iff.mpr (.inr hu)⟩, h⟩
    · rintro ⟨u, hu, h⟩
      obtain ⟨v, hv, hu⟩ := occursInside_iff.mp hu
      refine ⟨v, hv, ?_⟩
      rw [Bool.or_eq_true]
      rcases occursIn_iff.mp hu with rfl | hu
      · exact .inl h
      · exact .inr ((ih v hv).mpr ⟨u, hu, h⟩)

theorem columns_eq_flatMap (h : ∀ name, t ≠ .variable name) :
    t.columns = t.parts.flatMap columns := by
  cases t with
  | «variable» name => exact absurd rfl (h name)
  | function name arg => simp [columns, parts]
  | interaction terms | crossing terms => exact columnsAll_eq terms
  | dot | intercept => rfl

theorem mem_columns_iff : name ∈ t.columns ↔ (Term.variable name).OccursIn t := by
  induction t using induction_parts with
  | h t ih =>
    rw [occursIn_iff, occursInside_iff]
    by_cases ht : ∃ n, t = .variable n
    · obtain ⟨n, rfl⟩ := ht
      simp [columns, parts]
    · rw [not_exists] at ht
      rw [columns_eq_flatMap ht, List.mem_flatMap]
      constructor
      · rintro ⟨u, hu, h⟩
        exact .inr ⟨u, hu, (ih u hu).mp h⟩
      · rintro (rfl | ⟨u, hu, h⟩)
        · exact absurd rfl (ht name)
        · exact ⟨u, hu, (ih u hu).mpr h⟩

end ModelFormula.Term
