import Mathlib.Data.List.Basic
import ModelFormula.Proofs.Constructors
import ModelFormula.Proofs.Occurrence

/-! # The normal form of terms

Over non-empty operands, the constructors make no interaction or crossing of a single operand, no
interaction of interactions and no crossing that repeats an operand, however deep these are nested.
Interactions can therefore be grouped in any way.
-/

namespace ModelFormula

section Lists

variable {α : Type}

theorem two_le_length {l : List α} (hne : l ≠ []) (hsingle : ∀ a, l ≠ [a]) : 2 ≤ l.length := by
  match l with
  | [] => exact absurd rfl hne
  | [a] => exact absurd rfl (hsingle a)
  | _ :: _ :: l => simp

theorem nodup_eraseDups [BEq α] [LawfulBEq α] (l : List α) : l.eraseDups.Nodup := by
  match l with
  | [] => exact List.nodup_nil
  | a :: l =>
    rw [List.eraseDups_cons, List.nodup_cons, List.mem_eraseDups, List.mem_filter]
    exact ⟨by simp, nodup_eraseDups _⟩
termination_by l.length
decreasing_by exact Nat.lt_succ_of_le (List.length_filter_le _ _)

end Lists

namespace Term

variable {t u : Term} {operands : List Term}

/-- The terms that the constructors make over non-empty operands, nested in any way. -/
inductive Composed : Term → Prop where

  | column (name : String) : Composed (.variable name)

  | function (name : String) {arg : Term} : Composed arg → Composed (.function name arg)

  | interaction {operands : List Term} : operands ≠ [] → (∀ t ∈ operands, Composed t) →
      Composed (interactionOf operands)

  | crossing {operands : List Term} : operands ≠ [] → (∀ t ∈ operands, Composed t) →
      Composed (crossingOf operands)

  | dot : Composed .dot

  | intercept : Composed .intercept

/-- An interaction has several operands, none of them an interaction, and a crossing has several
different operands. -/
def IsReduced : Term → Prop
  | .interaction operands => 2 ≤ operands.length ∧ ∀ t ∈ operands, ∀ inner, t ≠ .interaction inner
  | .crossing operands => 2 ≤ operands.length ∧ operands.Nodup
  | _ => True

def IsNormal (t : Term) : Prop := ∀ u : Term, u.OccursIn t → u.IsReduced

theorem occursIn_of_mem_factors (h : u ∈ t.factors) : u.OccursIn t := by
  rw [occursIn_iff]
  cases t with
  | interaction operands =>
    exact .inr (occursInside_iff.mpr ⟨u, h, occursIn_iff.mpr (.inl rfl)⟩)
  | «variable» | function | crossing | dot | intercept => exact .inl (List.mem_singleton.mp h)

namespace IsNormal

theorem of_parts (h : t.IsReduced) (hparts : ∀ u ∈ t.parts, IsNormal u) : IsNormal t := by
  intro u hu
  rcases occursIn_iff.mp hu with rfl | hu
  · exact h
  · obtain ⟨v, hv, hu⟩ := occursInside_iff.mp hu
    exact hparts v hv u hu

theorem isReduced (h : IsNormal t) : t.IsReduced := h t (occursIn_iff.mpr (.inl rfl))

theorem of_mem_factors (h : IsNormal t) (hu : u ∈ t.factors) : IsNormal u :=
  fun v hv => h v (hv.trans (occursIn_of_mem_factors hu))

theorem factors_ne_nil (h : IsNormal t) : t.factors ≠ [] := by
  cases t with
  | interaction operands => exact List.ne_nil_of_length_pos (Nat.lt_of_succ_lt h.isReduced.1)
  | «variable» | function | crossing | dot | intercept => exact List.cons_ne_nil _ _

theorem ne_interaction_of_mem_factors (h : IsNormal t) (hu : u ∈ t.factors)
    (inner : List Term) : u ≠ .interaction inner := by
  cases t with
  | interaction operands => exact h.isReduced.2 u hu inner
  | «variable» | function | crossing | dot | intercept =>
    rw [List.mem_singleton.mp hu]
    exact Term.noConfusion

theorem interactionOf (hne : operands ≠ []) (h : ∀ t ∈ operands, IsNormal t) :
    IsNormal (interactionOf operands) := by
  have hall : ∀ u ∈ operands.flatMap factors,
      IsNormal u ∧ ∀ inner, u ≠ .interaction inner := by
    intro u hu
    obtain ⟨t, ht, hu⟩ := List.mem_flatMap.mp hu
    exact ⟨(h t ht).of_mem_factors hu, (h t ht).ne_interaction_of_mem_factors hu⟩
  have hflat : operands.flatMap factors ≠ [] := by
    obtain ⟨t, ts, rfl⟩ := List.exists_cons_of_ne_nil hne
    rw [List.flatMap_cons]
    exact List.append_ne_nil_of_left_ne_nil (h t List.mem_cons_self).factors_ne_nil _
  unfold Term.interactionOf
  split
  · next single hs => exact (hall single (by simp [hs])).1
  · next hsingle =>
    have hlength : 2 ≤ (operands.flatMap factors).length :=
      two_le_length hflat hsingle
    exact of_parts ⟨hlength, fun u hu => (hall u hu).2⟩ fun u hu => (hall u hu).1

theorem crossingOf (hne : operands ≠ []) (h : ∀ t ∈ operands, IsNormal t) :
    IsNormal (crossingOf operands) := by
  have hall : ∀ t ∈ operands.eraseDups, IsNormal t :=
    fun t ht => h t (List.mem_eraseDups.mp ht)
  have hdistinct : operands.eraseDups ≠ [] := by
    obtain ⟨t, ts, rfl⟩ := List.exists_cons_of_ne_nil hne
    rw [List.eraseDups_cons]
    exact List.cons_ne_nil _ _
  unfold Term.crossingOf
  split
  · next single hs => exact hall single (by simp [hs])
  · next hsingle =>
    have hlength : 2 ≤ operands.eraseDups.length := two_le_length hdistinct hsingle
    exact of_parts ⟨hlength, nodup_eraseDups operands⟩ hall

end IsNormal

theorem Composed.isNormal (h : Composed t) : IsNormal t := by
  induction h with
  | function name _ ih =>
    refine .of_parts trivial fun u hu => ?_
    rw [List.mem_singleton.mp hu]
    exact ih
  | interaction hne _ ih => exact .interactionOf hne ih
  | crossing hne _ ih => exact .crossingOf hne ih
  | column | dot | intercept => exact .of_parts trivial fun _ hu => nomatch hu

/-! ## Grouped operands -/

theorem factors_of_ne_interaction (h : ∀ inner, t ≠ .interaction inner) : t.factors = [t] := by
  cases t with
  | interaction inner => exact absurd rfl (h inner)
  | «variable» | function | crossing | dot | intercept => rfl

/-- An interaction is made of all that its operands bring in, also when this is a single term. -/
theorem factors_interactionOf
    (h : ∀ t ∈ operands, ∀ u ∈ t.factors, ∀ inner, u ≠ .interaction inner) :
    (interactionOf operands).factors = operands.flatMap factors := by
  unfold interactionOf
  split
  · next single hs =>
    obtain ⟨t, ht, hmem⟩ : ∃ t ∈ operands, single ∈ t.factors :=
      List.mem_flatMap.mp (by simp [hs])
    rw [hs, factors_of_ne_interaction (h t ht single hmem)]
  · rfl

/-- What the constructors make over non-empty operands is reduced everywhere, and to join
interactions by an interaction is to join all of their operands. -/
theorem isNormal_and_interactionOf_flatten : (∀ t, Composed t → IsNormal t) ∧
    ∀ groups : List (List Term), (∀ operands ∈ groups, ∀ t ∈ operands, Composed t) →
      interactionOf (groups.map interactionOf) = interactionOf groups.flatten := by
  refine ⟨fun _ ht => ht.isNormal, fun groups h => ?_⟩
  have hfactors : (groups.map interactionOf).flatMap factors = groups.flatten.flatMap factors := by
    rw [List.flatMap_map, List.flatten_eq_flatMap, List.flatMap_assoc]
    refine List.flatMap_congr fun operands hmem => ?_
    exact factors_interactionOf fun t ht _ hu =>
      (h operands hmem t ht).isNormal.ne_interaction_of_mem_factors hu
  rw [interactionOf, interactionOf, hfactors]

/-- A crossing that repeats an operand, over interactions that are nested and unwrapped. -/
theorem isNormal_and_interactionOf_flatten_nested :
    let a : Term := .variable "a"
    let b : Term := .variable "b"
    let joined := interactionOf [a, b]
    let call := function "log" (interactionOf [interactionOf [joined, b]])
    IsNormal (crossingOf [call, a, call]) ∧
      interactionOf [interactionOf [joined, call], interactionOf [a]] =
        interactionOf [joined, call, a] ∧
      interactionOf [joined, call, a] = .interaction [a, b, call, a] := by
  intro a b joined call
  have ha : Composed a := .column "a"
  have hb : Composed b := .column "b"
  have hjoined : Composed joined := .interaction (List.cons_ne_nil _ _) (by simp [ha, hb])
  have hinner : Composed (interactionOf [joined, b]) :=
    .interaction (List.cons_ne_nil _ _) (by simp [hjoined, hb])
  have hcall : Composed call :=
    .function "log" (.interaction (List.cons_ne_nil _ _) (by simp [hinner]))
  have hcrossing : Composed (crossingOf [call, a, call]) :=
    .crossing (List.cons_ne_nil _ _) (by simp [hcall, ha])
  obtain ⟨hnormal, hflatten⟩ := isNormal_and_interactionOf_flatten
  exact ⟨hnormal _ hcrossing, hflatten [[joined, call], [a]] (by simp [hjoined, hcall, ha]), rfl⟩

end Term

end ModelFormula
