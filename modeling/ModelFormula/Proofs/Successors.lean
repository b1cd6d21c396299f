import ModelFormula.Proofs.Selections

/-! # Selections one after the other

The selections of one size can be listed by a loop that turns each selection into the next one: the
last position that has room is moved on, and the positions after it close up to it. The loop looks
up places that a list may not have and takes differences that may be below zero. Every such step is
checked here, and the loop might have no end. It has one, meets no fault before it, and lists the
selections that the recursion gives.
-/

namespace ModelFormula

namespace Selection

inductive Fault
  /-- A place that the list does not have. -/
  | outside
  /-- A difference below zero. -/
  | negative
  deriving DecidableEq, Repr

def entry (s : List Nat) (place : Nat) : Except Fault Nat :=
  match s[place]? with
  | some position => .ok position
  | none => .error .outside

def store (s : List Nat) (place position : Nat) : Except Fault (List Nat) :=
  if place < s.length then .ok (s.set place position) else .error .outside

def difference (a b : Nat) : Except Fault Nat := if b ≤ a then .ok (a - b) else .error .negative

/-- The last of the first places whose position can still move on, where all positions lie below
`n` and there are `k` of them. -/
def lastRoom (n k : Nat) (s : List Nat) : Nat → Except Fault (Option Nat)
  | 0 => return none
  | place + 1 => do
    let position ← entry s place
    let spare ← difference n k
    if position < spare + place then return some place
    lastRoom n k s place

/-- Moves the positions from a place on, so that each follows the one before it. -/
def closeUp (s : List Nat) (place : Nat) : Nat → Except Fault (List Nat)
  | 0 => return s
  | count + 1 => do
    let before ← entry s (← difference place 1)
    let s ← store s place (before + 1)
    closeUp s (place + 1) count

def advance (n k : Nat) (s : List Nat) : Except Fault (Option (List Nat)) := do
  let some place ← lastRoom n k s k | return none
  let position ← entry s place
  let s ← store s place (position + 1)
  let s ← closeUp s (place + 1) (k - (place + 1))
  return some s

/-- The loop comes to this end, from a selection and the list of those before it. -/
inductive EndsFrom (n k : Nat) : List Nat → List (List Nat) → Except Fault (List (List Nat)) → Prop
    where

  | fault {s : List Nat} {listed : List (List Nat)} {fault : Fault} :
      advance n k s = .error fault → EndsFrom n k s listed (.error fault)

  | last {s : List Nat} {listed : List (List Nat)} : advance n k s = .ok none →
      EndsFrom n k s listed (.ok (listed ++ [s]))

  | next {s t : List Nat} {listed : List (List Nat)} {result : Except Fault (List (List Nat))} :
      advance n k s = .ok (some t) → EndsFrom n k t (listed ++ [s]) result →
      EndsFrom n k s listed result

/-- To list the selections of `k` of the positions below `n`, the loop starts from the first `k`
positions. -/
def Ends (n k : Nat) (result : Except Fault (List (List Nat))) : Prop :=
  if k = 0 ∨ n < k then result = .ok [] else EndsFrom n k (List.range k) [] result

/-! ## What follows a selection -/

/-- The selection of as many positions below `n` that is next in lexicographic order. -/
def successor? (n : Nat) : List Nat → Option (List Nat)
  | [] => none
  | position :: s =>
    match successor? n s with
    | some t => some (position :: t)
    | none =>
      if position + 1 + s.length < n then some (List.range' (position + 1) (s.length + 1))
      else none

inductive Succession (n : Nat) : List (List Nat) → Prop where

  | nil : Succession n []

  | cons {s : List Nat} {l : List (List Nat)} : successor? n s = l.head? → Succession n l →
      Succession n (s :: l)

variable {n k start position : Nat} {s t p u : List Nat} {l l' : List (List Nat)}

theorem head?_selectionsFrom (start n k : Nat) : (selectionsFrom start n k).head? =
    if k ≤ n then some (List.range' start k) else none := by
  fun_induction selectionsFrom start n k with
  | case1 => simp
  | case2 => simp
  | case3 start n k ih₁ ih₂ =>
    rw [List.head?_append, List.head?_map, ih₁, ih₂]
    by_cases h : k ≤ n
    · simp [h, List.range'_succ]
    · have : ¬ k + 1 ≤ n := by omega
      simp [h, this]

theorem Succession.map_cons_append (h : Succession n l) (hl : ∀ s ∈ l, s.length = k)
    (h' : Succession n l') (hhead : l'.head? =
      if start + 1 + k < n then some (List.range' (start + 1) (k + 1)) else none) :
    Succession n (l.map (start :: ·) ++ l') := by
  induction h with
  | nil => exact h'
  | @cons s l hs _ ih =>
    obtain ⟨hlength, hl⟩ := List.forall_mem_cons.mp hl
    apply Succession.cons _ (ih hl)
    cases l with
    | nil => simp [successor?, hs, hlength, hhead]
    | cons t l => simp [successor?, hs]

/-- The selections of one size follow each other. -/
theorem succession_selectionsFrom (start n k : Nat) :
    Succession (start + n) (selectionsFrom start n k) := by
  fun_induction selectionsFrom start n k with
  | case1 => exact .cons rfl .nil
  | case2 => exact .nil
  | case3 start n k ih₁ ih₂ =>
    rw [Nat.add_right_comm] at ih₁ ih₂
    apply ih₁.map_cons_append (fun s => length_of_mem_selectionsFrom) ih₂
    rw [head?_selectionsFrom]
    congr 1
    apply propext
    omega

/-- A selection without successor, or the last position that has room and what becomes of it. -/
theorem successor?_cases (n : Nat) (s : List Nat) : successor? n s = none ∨
    ∃ p position u, s = p ++ position :: u ∧ successor? n u = none ∧
      position + 1 + u.length < n ∧
      successor? n s = some (p ++ List.range' (position + 1) (u.length + 1)) := by
  induction s with
  | nil => exact .inl rfl
  | cons first s ih =>
    rcases ih with hs | ⟨p, position, u, rfl, hu, hroom, hs⟩
    · by_cases hroom : first + 1 + s.length < n
      · right
        exact ⟨[], first, s, rfl, hs, hroom, by simp [successor?, hs, hroom]⟩
      · left
        simp [successor?, hs, hroom]
    · right
      exact ⟨first :: p, position, u, rfl, hu, hroom, by simp [successor?, hs]⟩

/-! ## What one round of the loop does -/

theorem entry_append_cons : entry (p ++ position :: u) p.length = .ok position := by
  simp [entry]

theorem store_append_cons (p u : List Nat) (position other : Nat) :
    store (p ++ position :: u) p.length other = .ok (p ++ other :: u) := by
  simp [store]

theorem difference_of_le {a b : Nat} (h : b ≤ a) : difference a b = .ok (a - b) := if_pos h

theorem lastRoom_succ (hk : k = p.length + (u.length + 1)) (hn : k ≤ n) :
    lastRoom n k (p ++ position :: u) (p.length + 1) =
      if position + 1 + u.length < n then .ok (some p.length)
      else lastRoom n k (p ++ position :: u) p.length := by
  have hroom : position < n - k + p.length ↔ position + 1 + u.length < n := by omega
  rw [lastRoom, entry_append_cons, difference_of_le hn]
  simp only [bind, Except.bind, pure, Except.pure, hroom]

theorem lastRoom_of_successor?_eq_none (p : List Nat) (hu : successor? n u = none)
    (hk : k = p.length + u.length) (hn : k ≤ n) :
    lastRoom n k (p ++ u) (p.length + u.length) = lastRoom n k (p ++ u) p.length := by
  induction u generalizing p with
  | nil => rfl
  | cons position u ih =>
    have hu' : successor? n u = none ∧ ¬ position + 1 + u.length < n := by
      cases h : successor? n u <;> simp_all [successor?]
    rw [List.length_cons] at hk
    have hlater := ih (p ++ [position]) hu'.1 (by simp; omega)
    simp only [List.append_assoc, List.singleton_append, List.length_append,
      List.length_singleton] at hlater
    rw [List.length_cons, Nat.add_comm u.length 1, ← Nat.add_assoc, hlater,
      lastRoom_succ hk hn, if_neg hu'.2]

theorem closeUp_append_cons (p : List Nat) (position : Nat) (u : List Nat) :
    closeUp (p ++ position :: u) (p.length + 1) u.length =
      .ok (p ++ List.range' position (u.length + 1)) := by
  induction u generalizing p position with
  | nil => rfl
  | cons other u ih =>
    have hstore : store (p ++ position :: other :: u) (p.length + 1) (position + 1) =
        .ok (p ++ [position] ++ (position + 1) :: u) := by
      simpa using store_append_cons (p ++ [position]) u other (position + 1)
    have hrest := ih (p ++ [position]) (position + 1)
    rw [List.length_append, List.length_singleton] at hrest
    rw [List.length_cons, closeUp, difference_of_le (Nat.le_add_left 1 _), Nat.add_sub_cancel]
    simp only [bind, Except.bind, entry_append_cons, hstore, hrest]
    simp [List.range'_succ]

/-- A round of the loop meets no fault and goes on to the successor. -/
theorem advance_eq (hk : s.length = k) (hn : k ≤ n) : advance n k s = .ok (successor? n s) := by
  rcases successor?_cases n s with hs | ⟨p, position, u, rfl, hu, hroom, hs⟩
  · have hnone : lastRoom n k s k = .ok none := by
      have h := lastRoom_of_successor?_eq_none [] hs (by simp [hk]) hn
      simpa [hk, lastRoom, pure, Except.pure] using h
    simp only [advance, hnone, hs]
    rfl
  · have hk' : k = p.length + (u.length + 1) := by simp [← hk]
    have hsome : lastRoom n k (p ++ position :: u) k = .ok (some p.length) := by
      have h := lastRoom_of_successor?_eq_none (p ++ [position]) hu (by simp; omega) hn
      simp only [List.append_assoc, List.singleton_append, List.length_append,
        List.length_singleton] at h
      rw [lastRoom_succ hk' hn, if_pos hroom] at h
      rw [← h, hk']
      congr 1
      omega
    have hcount : k - (p.length + 1) = u.length := by omega
    simp only [advance, hsome, bind, Except.bind, entry_append_cons, store_append_cons, hcount,
      closeUp_append_cons, hs]
    rfl

/-- The loop lists what follows, one member in each round. -/
theorem endsFrom_of_succession (h : Succession n (s :: l)) (hl : ∀ t ∈ s :: l, t.length = k)
    (hn : k ≤ n) (listed : List (List Nat)) : EndsFrom n k s listed (.ok (listed ++ s :: l)) := by
  induction l generalizing s listed with
  | nil =>
    obtain _ | ⟨hs, -⟩ := h
    apply EndsFrom.last
    rw [advance_eq (hl s List.mem_cons_self) hn, hs]
    rfl
  | cons t l ih =>
    obtain ⟨hlength, hl⟩ := List.forall_mem_cons.mp hl
    obtain _ | ⟨hs, hrest⟩ := h
    have hlater := ih hrest hl (listed ++ [s])
    rw [List.append_assoc, List.singleton_append] at hlater
    apply EndsFrom.next _ hlater
    rw [advance_eq hlength hn, hs]
    rfl

theorem EndsFrom.unique {listed : List (List Nat)} {result result' : Except Fault (List (List Nat))}
    (h : EndsFrom n k s listed result) (h' : EndsFrom n k s listed result') : result = result' := by
  induction h with
  | fault hs => cases h' <;> simp_all
  | last hs => cases h' <;> simp_all
  | next hs _ ih =>
    cases h' with
    | fault hs' => simp [hs] at hs'
    | last hs' => simp [hs] at hs'
    | next hs' hrest =>
      obtain rfl : _ = _ := by simpa [hs] using hs'
      exact ih hrest

/-! ## The whole list -/

/-- The list has every selection of `k` positions below `n` once, in lexicographic order. -/
structure ListsSelections (n k : Nat) (l : List (List Nat)) : Prop where

  mem_iff : ∀ s, s ∈ l ↔ s.length = k ∧ s.Pairwise (· < ·) ∧ ∀ i ∈ s, i < n

  nodup : l.Nodup

  ordered : l.Pairwise (· < ·)

  length : l.length = n.choose k

theorem listsSelections_selectionsFrom (n k : Nat) :
    ListsSelections n k (selectionsFrom 0 n k) where
  mem_iff s := by simp [mem_selectionsFrom_iff]
  nodup := by
    apply pairwise_selectionsFrom.imp
    rintro s t hlt rfl
    exact List.lt_irrefl _ hlt
  ordered := pairwise_selectionsFrom
  length := length_selectionsFrom

theorem ends_selections (n k : Nat) : Ends n k (.ok (selections n k)) := by
  unfold Ends selections
  by_cases hk : k = 0
  · simp [hk]
  have hhead := head?_selectionsFrom 0 n k
  by_cases hn : k ≤ n
  · -- The loop starts from the first selection.
    have hne : ¬ (k = 0 ∨ n < k) := by omega
    rw [if_pos hn, List.head?_eq_some_iff, ← List.range_eq_range'] at hhead
    obtain ⟨l, hl⟩ := hhead
    have hlength : ∀ t ∈ List.range k :: l, t.length = k := by
      rw [← hl]
      exact fun t => length_of_mem_selectionsFrom
    have hsuccession := succession_selectionsFrom 0 n k
    rw [Nat.zero_add, hl] at hsuccession
    rw [if_neg hne, if_neg hk, hl]
    exact endsFrom_of_succession hsuccession hlength hn []
  · rw [if_neg hn, List.head?_eq_none_iff] at hhead
    rw [if_pos (.inr (by omega)), if_neg hk, hhead]

theorem Ends.unique {result result' : Except Fault (List (List Nat))} (h : Ends n k result)
    (h' : Ends n k result') : result = result' := by
  unfold Ends at h h'
  split at h
  · next hnone =>
    rw [if_pos hnone] at h'
    rw [h, h']
  · next hsome =>
    rw [if_neg hsome] at h'
    exact h.unique h'

/-- The loop comes to one end only, without a fault and with the selections that the recursion
gives. There are none of no positions or of more than there are, and otherwise the list has each
selection once, in lexicographic order. -/
theorem ends_iff_eq_selections (n k : Nat) :
    (∀ result, Ends n k result ↔ result = .ok (selections n k)) ∧
    (k = 0 ∨ n < k → selections n k = []) ∧
    (k ≠ 0 → ListsSelections n k (selections n k)) := by
  refine ⟨fun result => ⟨fun h => h.unique (ends_selections n k), ?_⟩, fun h => ?_, fun hk => ?_⟩
  · rintro rfl
    exact ends_selections n k
  · have hempty : Ends n k (.ok []) := by rw [Ends, if_pos h]
    exact Except.ok.inj ((ends_selections n k).unique hempty)
  · rw [selections_of_pos hk]
    exact listsSelections_selectionsFrom n k

/-- Positions are moved on in the middle and at the end, and there is nothing to select from too
few. -/
theorem ends_iff_eq_selections_three :
    let l := [[0, 1, 2], [0, 1, 3], [0, 2, 3], [1, 2, 3]]
    Ends 4 3 (.ok l) ∧ ListsSelections 4 3 l ∧ selections 2 3 = [] := by
  intro l
  obtain ⟨hends, -, hselections⟩ := ends_iff_eq_selections 4 3
  obtain ⟨-, hempty, -⟩ := ends_iff_eq_selections 2 3
  exact ⟨(hends _).mpr rfl, hselections (by decide), hempty (.inr (by decide))⟩

end Selection

end ModelFormula
