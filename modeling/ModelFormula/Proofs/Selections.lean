import Mathlib.Data.List.Perm.Subperm
import Mathlib.Data.Nat.Choose.Sum
import ModelFormula.Proofs.Constructors

/-! # Selections in order

The selections of a given size come in lexicographic order, and none is left out. Listed by size
they are all the non-empty selections, so that the list is determined by its order.
-/

namespace ModelFormula

variable {start n k i : Nat} {s t selection : List Nat} {l l' : List (List Nat)}

theorem pairwise_selectionsFrom : (selectionsFrom start n k).Pairwise (· < ·) := by
  fun_induction selectionsFrom start n k with
  | case1 => exact List.pairwise_singleton _ _
  | case2 => exact List.Pairwise.nil
  | case3 start n k ih₁ ih₂ =>
    refine List.pairwise_append.mpr ⟨?_, ih₂, ?_⟩
    · rw [List.pairwise_map]
      exact ih₁.imp fun h => List.cons_lt_cons_iff.mpr (.inr ⟨rfl, h⟩)
    · intro s hs t ht
      obtain ⟨s, -, rfl⟩ := List.mem_map.mp hs
      obtain ⟨hl, -, hb⟩ := mem_selectionsFrom_iff.mp ht
      cases t with
      | nil => cases hl
      | cons i t =>
        have hi := hb i List.mem_cons_self
        exact List.cons_lt_cons_iff.mpr (.inl hi.1)

theorem length_selectionsFrom : (selectionsFrom start n k).length = n.choose k := by
  fun_induction selectionsFrom start n k with
  | case1 => rw [Nat.choose_zero_right, List.length_singleton]
  | case2 => rw [Nat.choose_zero_succ, List.length_nil]
  | case3 start n k ih₁ ih₂ =>
    rw [List.length_append, List.length_map, ih₁, ih₂, Nat.choose_succ_succ]

theorem selectionsFrom_one (start n : Nat) :
    selectionsFrom start n 1 = (List.range' start n).map ([·]) := by
  induction n generalizing start with
  | zero => rfl
  | succ n ih => simp [selectionsFrom, ih, List.range'_succ]

theorem selectionsFrom_self (start n : Nat) :
    selectionsFrom start n n = [List.range' start n] := by
  induction n generalizing start with
  | zero => rfl
  | succ n ih =>
    have hnone : selectionsFrom (start + 1) n (n + 1) = [] := by
      rw [← List.length_eq_zero_iff, length_selectionsFrom, Nat.choose_succ_self]
    rw [selectionsFrom, ih, hnone, List.append_nil, List.map_singleton, List.range'_succ]

/-! ## Selections of any size -/

/-- A non-empty selection of positions below `n`, in increasing order. -/
structure IsSelection (n : Nat) (selection : List Nat) : Prop where

  ne_nil : selection ≠ []

  increasing : selection.Pairwise (· < ·)

  lt : ∀ i ∈ selection, i < n

/-- Smaller selections come first, and among those of one size the order is lexicographic. -/
def Precedes (s t : List Nat) : Prop := s.length < t.length ∨ s.length = t.length ∧ s < t

structure Enumerates (n : Nat) (l : List (List Nat)) : Prop where

  mem_iff : ∀ s, s ∈ l ↔ IsSelection n s

  ordered : l.Pairwise Precedes

def allSelections (n : Nat) : List (List Nat) := (List.range' 1 n).flatMap (selections n)

theorem Precedes.not_precedes (h : Precedes s t) : ¬ Precedes t s := by
  rintro (h' | ⟨h', hlt'⟩) <;> rcases h with h | ⟨h, hlt⟩
  · omega
  · omega
  · omega
  · exact List.lt_asymm hlt hlt'

theorem selections_of_pos (h : k ≠ 0) : selections n k = selectionsFrom 0 n k := if_neg h

theorem enumerates_allSelections (n : Nat) : Enumerates n (allSelections n) where
  mem_iff s := by
    rw [allSelections, List.mem_flatMap]
    constructor
    · rintro ⟨k, hk, hs⟩
      have hpos : k ≠ 0 := by
        rw [List.mem_range'_1] at hk
        omega
      rw [selections_of_pos hpos] at hs
      obtain ⟨hl, hp, hb⟩ := mem_selectionsFrom_iff.mp hs
      refine ⟨?_, hp, fun i hi => by simpa using (hb i hi).2⟩
      rintro rfl
      exact hpos hl.symm
    · rintro ⟨hne, hp, hb⟩
      have hpos : s.length ≠ 0 := by simpa using hne
      -- An increasing list of positions below `n` is no longer than all of them.
      have hle : s.length ≤ n := by
        have hsub : s ⊆ List.range n := fun i hi => List.mem_range.mpr (hb i hi)
        have hnodup : s.Nodup := hp.imp Nat.ne_of_lt
        simpa using (List.subperm_of_subset hnodup hsub).length_le
      refine ⟨s.length, List.mem_range'_1.mpr (by omega), ?_⟩
      rw [selections_of_pos hpos]
      refine mem_selectionsFrom_iff.mpr ⟨rfl, hp, fun i hi => ⟨Nat.zero_le i, ?_⟩⟩
      simpa using hb i hi
  ordered := by
    have hlength : ∀ k ∈ List.range' 1 n, ∀ s ∈ selections n k, s.length = k := by
      intro k hk s hs
      rw [selections_of_pos (by rw [List.mem_range'_1] at hk; omega)] at hs
      exact (mem_selectionsFrom_iff.mp hs).1
    rw [allSelections, List.pairwise_flatMap]
    refine ⟨fun k hk => ?_, ?_⟩
    · have hpos : k ≠ 0 := by
        rw [List.mem_range'_1] at hk
        omega
      have hlex : (selectionsFrom 0 n k).Pairwise (· < ·) := pairwise_selectionsFrom
      rw [← selections_of_pos hpos] at hlex
      refine hlex.imp_of_mem fun hs ht hlt => .inr ⟨?_, hlt⟩
      rw [hlength k hk _ hs, hlength k hk _ ht]
    · refine List.Pairwise.imp_of_mem (fun hj hk hlt s hs t ht => .inl ?_)
        (List.pairwise_lt_range' 1)
      rw [hlength _ hj s hs, hlength _ hk t ht]
      exact hlt

theorem Enumerates.nodup (h : Enumerates n l) : l.Nodup := by
  refine h.ordered.imp fun hst => ?_
  rintro rfl
  exact hst.not_precedes hst

/-- There is only one way to list the selections in order. -/
theorem Enumerates.eq (h : Enumerates n l) (h' : Enumerates n l') : l = l' := by
  have hperm : l.Perm l' := (List.perm_ext_iff_of_nodup h.nodup h'.nodup).mpr fun s =>
    (h.mem_iff s).trans (h'.mem_iff s).symm
  exact hperm.eq_of_pairwise (fun s t _ _ hst hts => absurd hts hst.not_precedes) h.ordered
    h'.ordered

theorem length_allSelections (n : Nat) : (allSelections n).length = 2 ^ n - 1 := by
  have hsum : ((List.range (n + 1)).map (n.choose ·)).sum = 2 ^ n := Nat.sum_range_choose n
  rw [List.range_eq_range', List.range'_succ, List.map_cons, List.sum_cons,
    Nat.choose_zero_right, Nat.zero_add] at hsum
  have hlength : (allSelections n).length = ((List.range' 1 n).map (n.choose ·)).sum := by
    rw [allSelections, List.length_flatMap]
    congr 1
    refine List.map_congr_left fun k hk => ?_
    rw [selections_of_pos (by rw [List.mem_range'_1] at hk; omega), length_selectionsFrom]
  omega

theorem exists_allSelections_eq_append (n : Nat) : ∃ more,
    allSelections (n + 1) = (List.range (n + 1)).map ([·]) ++ more := by
  have hone : selections (n + 1) 1 = (List.range (n + 1)).map ([·]) := by
    rw [selections_of_pos Nat.one_ne_zero, selectionsFrom_one, List.range_eq_range']
  rw [allSelections, List.range'_succ, List.flatMap_cons, hone]
  exact ⟨_, rfl⟩

theorem exists_allSelections_eq_concat (n : Nat) : ∃ before,
    allSelections (n + 1) = before ++ [List.range (n + 1)] := by
  have hall : selections (n + 1) (1 + n) = [List.range (n + 1)] := by
    rw [Nat.add_comm 1 n, selections_of_pos n.succ_ne_zero, selectionsFrom_self,
      List.range_eq_range']
  rw [allSelections, List.range'_1_concat, List.flatMap_append, List.flatMap_singleton, hall]
  exact ⟨_, rfl⟩

end ModelFormula
