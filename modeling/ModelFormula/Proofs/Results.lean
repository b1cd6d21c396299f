import Mathlib.Data.List.Forall2

/-! # Results

A chain of computations ends well exactly when every one of them does.
-/

namespace ModelFormula

variable {ε ε' α β : Type} {x : Except ε α} {a : α} {b : β} {error : ε}

theorem bind_eq_ok_iff {f : α → Except ε β} :
    (x >>= f) = .ok b ↔ ∃ a, x = .ok a ∧ f a = .ok b := by
  cases x with
  | error e => simp [Bind.bind, Except.bind]
  | ok a => simp [Bind.bind, Except.bind]

theorem bind_eq_error_iff {f : α → Except ε β} :
    (x >>= f) = .error error ↔ x = .error error ∨ ∃ a, x = .ok a ∧ f a = .error error := by
  cases x with
  | error e => simp [Bind.bind, Except.bind]
  | ok a => simp [Bind.bind, Except.bind]

theorem map_eq_ok_iff {f : α → β} : x.map f = .ok b ↔ ∃ a, x = .ok a ∧ f a = b := by
  cases x with
  | error e => simp [Except.map]
  | ok a => simp [Except.map]

theorem map_eq_error_iff {f : α → β} : x.map f = .error error ↔ x = .error error := by
  cases x with
  | error e => simp [Except.map]
  | ok a => simp [Except.map]

theorem mapError_eq_ok_iff {f : ε → ε'} : x.mapError f = .ok a ↔ x = .ok a := by
  cases x with
  | error e => simp [Except.mapError]
  | ok a => simp [Except.mapError]

theorem pure_eq_ok_iff {a a' : α} : (pure a : Except ε α) = .ok a' ↔ a = a' := by
  simp [Pure.pure, Except.pure]

section Lists

variable {f : α → Except ε β} {xs : List α} {ys : List β}

theorem mapM_eq_ok_iff :
    xs.mapM f = .ok ys ↔ List.Forall₂ (fun x y => f x = .ok y) xs ys := by
  induction xs generalizing ys with
  | nil => simp [Pure.pure, Except.pure, eq_comm]
  | cons x xs ih =>
    simp only [List.mapM_cons, bind_eq_ok_iff, pure_eq_ok_iff, ih, List.forall₂_cons_left_iff]
    constructor
    · rintro ⟨y, hy, ys, hys, rfl⟩
      exact ⟨y, ys, hy, hys, rfl⟩
    · rintro ⟨y, ys, hy, hys, rfl⟩
      exact ⟨y, hy, ys, hys, rfl⟩

theorem option_mapM_eq_ok_iff {o : Option α} {o' : Option β} :
    o.mapM f = .ok o' ↔ List.Forall₂ (fun x y => f x = .ok y) o.toList o'.toList := by
  cases o with
  | none => cases o' <;> simp [pure_eq_ok_iff]
  | some x =>
    cases hx : f x with
    | error e => cases o' <;> simp [hx, Functor.map, Except.map]
    | ok y => cases o' <;> simp [hx, Functor.map, Except.map]

theorem exists_of_mapM_eq_error (h : xs.mapM f = .error error) : ∃ x ∈ xs, f x = .error error := by
  induction xs with
  | nil => cases h
  | cons x xs ih =>
    rw [List.mapM_cons, bind_eq_error_iff] at h
    rcases h with hfirst | ⟨y, -, h⟩
    · exact ⟨x, List.mem_cons_self, hfirst⟩
    · rcases bind_eq_error_iff.mp h with hrest | ⟨ys, -, h⟩
      · obtain ⟨x, hx, herror⟩ := ih hrest
        exact ⟨x, List.mem_cons_of_mem _ hx, herror⟩
      · cases h

theorem exists_of_option_mapM_eq_error {o : Option α} (h : o.mapM f = .error error) :
    ∃ x ∈ o, f x = .error error := by
  cases o with
  | none => cases h
  | some x =>
    rw [Option.mapM_some] at h
    exact ⟨x, rfl, map_eq_error_iff.mp h⟩

end Lists

theorem mapM_eq_some_map {α β : Type} {f : α → Option β} {g : α → β} {xs : List α}
    (h : ∀ x ∈ xs, f x = some (g x)) : xs.mapM f = some (xs.map g) := by
  induction xs with
  | nil => rfl
  | cons x xs ih =>
    obtain ⟨hfirst, hrest⟩ := List.forall_mem_cons.mp h
    rw [List.mapM_cons, hfirst, ih hrest]
    rfl

theorem exists_forall₂_iff {r : α → β → Prop} {xs : List α} :
    (∃ ys, List.Forall₂ r xs ys) ↔ ∀ x ∈ xs, ∃ y, r x y := by
  induction xs with
  | nil => simp
  | cons x xs ih =>
    simp only [List.forall_mem_cons, List.forall₂_cons_left_iff, ← ih]
    constructor
    · rintro ⟨-, y, ys, hy, hys, -⟩
      exact ⟨⟨y, hy⟩, ys, hys⟩
    · rintro ⟨⟨y, hy⟩, ys, hys⟩
      exact ⟨_, y, ys, hy, hys, rfl⟩

theorem exists_mem_of_mem_right {r : α → β → Prop} {xs : List α} {ys : List β} {y : β}
    (h : List.Forall₂ r xs ys) (hy : y ∈ ys) : ∃ x ∈ xs, r x y := by
  induction h with
  | nil => cases hy
  | cons hfirst _ ih =>
    rcases List.mem_cons.mp hy with rfl | hy
    · exact ⟨_, List.mem_cons_self, hfirst⟩
    · obtain ⟨x, hx, hr⟩ := ih hy
      exact ⟨x, List.mem_cons_of_mem _ hx, hr⟩

theorem exists_mem_of_mem_left {r : α → β → Prop} {xs : List α} {ys : List β} {x : α}
    (h : List.Forall₂ r xs ys) (hx : x ∈ xs) : ∃ y ∈ ys, r x y :=
  exists_mem_of_mem_right h.flip hx

theorem exists_option_forall₂_iff {r : α → β → Prop} {o : Option α} :
    (∃ o' : Option β, List.Forall₂ r o.toList o'.toList) ↔ ∀ x ∈ o, ∃ y, r x y := by
  cases o with
  | none => exact ⟨fun _ x hx => (nomatch hx), fun _ => ⟨none, .nil⟩⟩
  | some x =>
    constructor
    · rintro ⟨_ | y, h⟩ x ⟨⟩
      · cases h
      · exact ⟨y, (List.forall₂_cons.mp h).1⟩
    · intro h
      obtain ⟨y, hy⟩ := h x rfl
      exact ⟨some y, .cons hy .nil⟩

end ModelFormula
