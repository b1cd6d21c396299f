import Mathlib.Algebra.BigOperators.Group.List.Basic
import Mathlib.Data.List.Forall2
import ModelFormula.Proofs.DesignMatrix

/-! # Combinations of levels

The combinations for some numbers of levels are the numerals in the mixed radix of these numbers, in
increasing order: the digits of a numeral, of which the last has weight one, tell its position.
-/

namespace ModelFormula

/-- The number with these digits, where the digit for a count lies below it. -/
def radixPosition : List Nat → List Nat → Nat
  | _ :: counts, code :: codes => code * counts.prod + radixPosition counts codes
  | _, _ => 0

variable {counts codes combination : List Nat}

theorem length_levelCombinations (counts : List Nat) :
    (levelCombinations counts).length = counts.prod := by
  induction counts with
  | nil => rfl
  | cons count counts ih =>
    have hblocks : ((List.range count).flatMap fun code =>
        (levelCombinations counts).map (code :: ·)).length =
          (List.range count).length * (levelCombinations counts).length :=
      Matrix.length_flatMap_map _ _ List.cons
    rw [levelCombinations, hblocks, List.length_range, ih, List.prod_cons]

theorem mem_levelCombinations :
    codes ∈ levelCombinations counts ↔ List.Forall₂ (· < ·) codes counts := by
  induction counts generalizing codes with
  | nil => simp [levelCombinations]
  | cons count counts ih =>
    simp only [levelCombinations, List.mem_flatMap, List.mem_range, List.mem_map, ih,
      List.forall₂_cons_right_iff]
    constructor
    · rintro ⟨code, hcode, rest, hrest, rfl⟩
      exact ⟨code, rest, hcode, hrest, rfl⟩
    · rintro ⟨code, rest, hcode, hrest, rfl⟩
      exact ⟨code, hcode, rest, hrest, rfl⟩

theorem radixPosition_lt (h : List.Forall₂ (· < ·) codes counts) :
    radixPosition counts codes < counts.prod := by
  induction h with
  | nil => exact Nat.one_pos
  | @cons code count codes counts hcode _ ih =>
    calc code * counts.prod + radixPosition counts codes
      _ < code * counts.prod + counts.prod := Nat.add_lt_add_left ih _
      _ = (code + 1) * counts.prod := (Nat.succ_mul _ _).symm
      _ ≤ count * counts.prod := Nat.mul_le_mul_right _ hcode
      _ = (count :: counts).prod := List.prod_cons.symm

/-- A combination stands where its codes, read as digits, say. -/
theorem getElem?_levelCombinations (h : List.Forall₂ (· < ·) codes counts) :
    (levelCombinations counts)[radixPosition counts codes]? = some codes := by
  induction h with
  | nil => rfl
  | @cons code count codes counts hcode hcodes ih =>
    have hlt : radixPosition counts codes < (levelCombinations counts).length := by
      rw [length_levelCombinations]
      exact radixPosition_lt hcodes
    have hblock : (levelCombinations (count :: counts))[
        code * (levelCombinations counts).length + radixPosition counts codes]? =
          ((levelCombinations counts).map (code :: ·))[radixPosition counts codes]? :=
      Matrix.getElem?_flatMap_map hcode hlt
    rw [radixPosition, ← length_levelCombinations, hblock, List.getElem?_map, ih, Option.map_some]

/-- The first code counts in steps of all combinations of the others, and the last in steps of
one. -/
example : levelCombinations [2, 3] = [[0, 0], [0, 1], [0, 2], [1, 0], [1, 1], [1, 2]] ∧
    radixPosition [2, 3] [1, 1] = 4 := by decide

theorem radixPosition_inj (h : List.Forall₂ (· < ·) codes counts)
    (h' : List.Forall₂ (· < ·) combination counts)
    (he : radixPosition counts combination = radixPosition counts codes) :
    combination = codes := by
  have hcombination := getElem?_levelCombinations h'
  rw [he, getElem?_levelCombinations h] at hcombination
  exact (Option.some.inj hcombination).symm

theorem exists_combination {j : Nat} (h : j < counts.prod) : ∃ combination,
    List.Forall₂ (· < ·) combination counts ∧ radixPosition counts combination = j := by
  induction counts generalizing j with
  | nil => exact ⟨[], .nil, (Nat.lt_one_iff.mp h).symm⟩
  | cons count counts ih =>
    rw [List.prod_cons, Nat.mul_comm] at h
    have hpos : 0 < counts.prod := Nat.pos_of_mul_pos_right (Nat.zero_lt_of_lt h)
    obtain ⟨rest, hrest, hposition⟩ := ih (Nat.mod_lt j hpos)
    refine ⟨j / counts.prod :: rest, .cons (Nat.div_lt_of_lt_mul h) hrest, ?_⟩
    rw [radixPosition, hposition]
    exact Nat.div_add_mod' j counts.prod

end ModelFormula
