/-! # Ascending lists of positions

The positions that occur in a list, each once and in increasing order.
-/

namespace ModelFormula

def insertPosition (i : Nat) : List Nat → List Nat
  | [] => [i]
  | j :: js =>
    if i < j then i :: j :: js
    else if i = j then j :: js
    else j :: insertPosition i js

/-- The positions in a list, increasing and without repeats. -/
def ascending (positions : List Nat) : List Nat := positions.foldr insertPosition []

theorem mem_insertPosition {i k : Nat} {js : List Nat} :
    k ∈ insertPosition i js ↔ k = i ∨ k ∈ js := by
  induction js with
  | nil => simp [insertPosition]
  | cons j js ih =>
    unfold insertPosition
    split
    · simp
    · split
      · next h => subst h; simp
      · simp only [List.mem_cons, ih]
        exact or_left_comm

@[simp] theorem mem_ascending {k : Nat} {positions : List Nat} :
    k ∈ ascending positions ↔ k ∈ positions := by
  induction positions with
  | nil => simp [ascending]
  | cons i positions ih =>
    rw [ascending, List.foldr_cons, mem_insertPosition, List.mem_cons]
    exact or_congr_right ih

theorem pairwise_insertPosition {i : Nat} {js : List Nat} (h : js.Pairwise (· < ·)) :
    (insertPosition i js).Pairwise (· < ·) := by
  induction js with
  | nil => simp [insertPosition]
  | cons j js ih =>
    have ⟨hj, hjs⟩ := List.pairwise_cons.mp h
    unfold insertPosition
    split
    · next hij =>
      refine List.pairwise_cons.mpr ⟨fun k hk => ?_, h⟩
      rcases List.mem_cons.mp hk with rfl | hk
      · exact hij
      · exact Nat.lt_trans hij (hj k hk)
    · split
      · exact h
      · refine List.pairwise_cons.mpr ⟨fun k hk => ?_, ih hjs⟩
        rcases mem_insertPosition.mp hk with rfl | hk
        · omega
        · exact hj k hk

theorem pairwise_ascending (positions : List Nat) : (ascending positions).Pairwise (· < ·) := by
  induction positions with
  | nil => simp [ascending]
  | cons i positions ih => exact pairwise_insertPosition ih

end ModelFormula
