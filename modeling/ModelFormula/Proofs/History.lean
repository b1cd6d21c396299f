import Mathlib.Data.List.Induction
import Mathlib.Data.List.Perm.Basic
import ModelFormula.Proofs.Edits

/-! # Histories of changes

An edit comes down to changes of one term each; a crossing is changed term by term, in the order
of its expansion. The history of changes decides which terms are predictors, in which order they
stand, and whether the response is released.
-/

namespace ModelFormula

inductive Change
  | insertion (term : Term)
  | erasure (term : Term)
  deriving DecidableEq, Repr

def Edit.changes : Edit → List Change
  | .add term => term.summands.map .insertion
  | .remove term => term.summands.map .erasure

namespace Change

variable {changes : List Change} {change : Change} {u : Term} {i : Nat}

def term : Change → Term
  | insertion term | erasure term => term

def apply (f : Formula) : Change → Formula
  | insertion term => f.insert term
  | erasure term => f.erase term

def last? (changes : List Change) (u : Term) : Option Change :=
  (changes.filter fun change => decide (change.term = u)).getLast?

/-- The term is inserted at position `i`, is not erased later, and every earlier insertion of it
is followed by an erasure before `i`. This is its earliest insertion after its latest erasure. -/
structure EntersAt (changes : List Change) (u : Term) (i : Nat) : Prop where
  inserted : changes[i]? = some (insertion u)
  kept : ∀ j : Nat, i < j → changes[j]? ≠ some (erasure u)
  fresh : ∀ j : Nat, j < i → changes[j]? = some (insertion u) →
    ∃ k : Nat, j < k ∧ k < i ∧ changes[k]? = some (erasure u)

/-- Some erasure of the term comes after some insertion of it. -/
def Withdraws (changes : List Change) (u : Term) : Prop :=
  ∃ i j : Nat, i < j ∧ changes[i]? = some (insertion u) ∧ changes[j]? = some (erasure u)

theorem last?_append (changes : List Change) (change : Change) (u : Term) :
    last? (changes ++ [change]) u = if change.term = u then some change else last? changes u := by
  unfold last?
  split <;> simp_all

theorem getElem?_append_eq_some_iff {other : Change} : (changes ++ [change])[i]? = some other ↔
    changes[i]? = some other ∨ (i = changes.length ∧ change = other) := by
  rw [List.getElem?_append]
  split
  · next h => simp [Nat.ne_of_lt h]
  · next h =>
    rw [List.getElem?_eq_none (Nat.not_lt.mp h), List.getElem?_singleton]
    by_cases hi : i = changes.length
    · simp [hi]
    · have : i - changes.length ≠ 0 := by omega
      simp [hi, this]

theorem lt_length_of_getElem? (h : changes[i]? = some change) : i < changes.length :=
  (List.getElem?_eq_some_iff.mp h).1

theorem eq_of_term_eq (h : change.term = u) : change = insertion u ∨ change = erasure u := by
  cases change with
  | insertion t => exact .inl (congrArg insertion h)
  | erasure t => exact .inr (congrArg erasure h)

/-- Unless a term is inserted last, each of its insertions is followed by an erasure. -/
theorem exists_erasure (h : last? changes u ≠ some (insertion u))
    (hi : changes[i]? = some (insertion u)) :
    ∃ k : Nat, i < k ∧ changes[k]? = some (erasure u) := by
  induction changes using List.reverseRecOn with
  | nil => simp at hi
  | append_singleton changes change ih =>
    rw [last?_append] at h
    simp only [getElem?_append_eq_some_iff] at hi ⊢
    rcases hi with hi | ⟨-, rfl⟩
    · split at h
      · next hu =>
        rcases eq_of_term_eq hu with rfl | rfl
        · exact absurd rfl h
        · exact ⟨changes.length, lt_length_of_getElem? hi, .inr ⟨rfl, rfl⟩⟩
      · obtain ⟨k, hik, hk⟩ := ih h hi
        exact ⟨k, hik, .inl hk⟩
    · exact absurd (if_pos rfl) h

namespace EntersAt

theorem append (h : EntersAt changes u i) (hc : change ≠ erasure u) :
    EntersAt (changes ++ [change]) u i where
  inserted := getElem?_append_eq_some_iff.mpr (.inl h.inserted)
  kept := by
    intro j hij hj
    rcases getElem?_append_eq_some_iff.mp hj with hj | ⟨-, hj⟩
    · exact h.kept j hij hj
    · exact hc hj
  fresh := by
    intro j hji hj
    have hi := lt_length_of_getElem? h.inserted
    rcases getElem?_append_eq_some_iff.mp hj with hj | ⟨hlength, -⟩
    · obtain ⟨k, hjk, hki, hk⟩ := h.fresh j hji hj
      exact ⟨k, hjk, hki, getElem?_append_eq_some_iff.mpr (.inl hk)⟩
    · omega

theorem of_absent (h : last? changes u ≠ some (insertion u)) :
    EntersAt (changes ++ [insertion u]) u changes.length where
  inserted := getElem?_append_eq_some_iff.mpr (.inr ⟨rfl, rfl⟩)
  kept := by
    intro j hij hj
    rcases getElem?_append_eq_some_iff.mp hj with hj | ⟨hlength, -⟩
    · have := lt_length_of_getElem? hj
      omega
    · omega
  fresh := by
    intro j hji hj
    rcases getElem?_append_eq_some_iff.mp hj with hj | ⟨hlength, -⟩
    · obtain ⟨k, hjk, hk⟩ := exists_erasure h hj
      exact ⟨k, hjk, lt_length_of_getElem? hk, getElem?_append_eq_some_iff.mpr (.inl hk)⟩
    · omega

end EntersAt

theorem exists_entersAt (h : last? changes u = some (insertion u)) :
    ∃ i, EntersAt changes u i := by
  induction changes using List.reverseRecOn with
  | nil => cases h
  | append_singleton changes change ih =>
    by_cases hlast : last? changes u = some (insertion u)
    · obtain ⟨i, hi⟩ := ih hlast
      refine ⟨i, hi.append ?_⟩
      rintro rfl
      simp [last?_append, term] at h
    · rw [last?_append] at h
      split at h
      · obtain rfl := Option.some.inj h
        exact ⟨_, .of_absent hlast⟩
      · exact absurd h hlast

theorem withdraws_append_iff : Withdraws (changes ++ [change]) u ↔
    Withdraws changes u ∨ (change = erasure u ∧ ∃ i : Nat, changes[i]? = some (insertion u)) := by
  unfold Withdraws
  simp only [getElem?_append_eq_some_iff]
  constructor
  · rintro ⟨i, j, hij, hi | ⟨hi, -⟩, hj | ⟨hj, hc⟩⟩
    · exact .inl ⟨i, j, hij, hi, hj⟩
    · exact .inr ⟨hc, i, hi⟩
    · have := lt_length_of_getElem? hj
      omega
    · omega
  · rintro (⟨i, j, hij, hi, hj⟩ | ⟨hc, i, hi⟩)
    · exact ⟨i, j, hij, .inl hi, .inl hj⟩
    · exact ⟨i, changes.length, lt_length_of_getElem? hi, .inl hi, .inr ⟨rfl, hc⟩⟩

end Change

namespace Formula

open Change (EntersAt Withdraws last? insertion erasure)

variable {f : Formula} {t u : Term} {response : Option Term} {changes : List Change}

/-- What a history of changes says about the formula that it leads to. -/
structure Reflects (response : Option Term) (changes : List Change) (f : Formula) : Prop where
  mem_iff : ∀ u, u ∈ f.predictors ↔ last? changes u = some (insertion u)
  ordered : f.predictors.Pairwise fun u v =>
    ∃ i j, EntersAt changes u i ∧ EntersAt changes v j ∧ i < j
  response_eq : f.responseTerm? = response
  released_iff : f.released = true ↔ ∃ t ∈ response, Withdraws changes t

theorem mem_erase_iff : u ∈ (f.erase t).predictors ↔ u ≠ t ∧ u ∈ f.predictors := by
  rw [predictors_erase, f.nodup.mem_erase_iff]

theorem released_insert (f : Formula) (t : Term) : (f.insert t).released = f.released := by
  rw [released, response_insert, released]

theorem released_erase_iff : (f.erase t).released = true ↔
    f.released = true ∨ (t ∈ f.predictors ∧ f.responseTerm? = some t) := by
  rw [released, response_erase, released, responseTerm?]
  split
  · next h =>
    cases f.response with
    | none => simp
    | some r => by_cases hr : r.term = t <;> simp [Response.remove, hr, h]
  · next h => simp [h]

namespace Reflects

theorem nil (response : Option Term) : Reflects response [] (ofResponse response) where
  mem_iff u := by simp [ofResponse, last?]
  ordered := List.Pairwise.nil
  response_eq := responseTerm?_ofResponse response
  released_iff := by cases response <;> simp [ofResponse, released, Withdraws]

theorem insert (h : Reflects response changes f) (t : Term) :
    Reflects response (changes ++ [insertion t]) (f.insert t) where
  mem_iff u := by
    rw [mem_insert, h.mem_iff, Change.last?_append]
    by_cases hu : t = u
    · subst hu
      simp [Change.term]
    · simp [Change.term, hu, Ne.symm hu]
  ordered := by
    have hold : f.predictors.Pairwise fun u v => ∃ i j, EntersAt (changes ++ [insertion t]) u i ∧
        EntersAt (changes ++ [insertion t]) v j ∧ i < j :=
      h.ordered.imp fun ⟨i, j, hi, hj, hij⟩ =>
        ⟨i, j, hi.append nofun, hj.append nofun, hij⟩
    rw [predictors_insert]
    split
    · exact hold
    · next ht =>
      refine List.pairwise_append.mpr ⟨hold, List.pairwise_singleton _ _, fun u hu v hv => ?_⟩
      obtain rfl := List.mem_singleton.mp hv
      obtain ⟨i, hi⟩ := Change.exists_entersAt ((h.mem_iff u).mp hu)
      exact ⟨i, changes.length, hi.append nofun, .of_absent (mt (h.mem_iff _).mpr ht),
        Change.lt_length_of_getElem? hi.inserted⟩
  response_eq := by rw [responseTerm?_insert, h.response_eq]
  released_iff := by simp [released_insert, h.released_iff, Change.withdraws_append_iff]

theorem erase (h : Reflects response changes f) (t : Term) :
    Reflects response (changes ++ [erasure t]) (f.erase t) where
  mem_iff u := by
    rw [mem_erase_iff, h.mem_iff, Change.last?_append]
    by_cases hu : t = u
    · simp [Change.term, hu]
    · simp [Change.term, hu, Ne.symm hu]
  ordered := by
    have hsub : (f.erase t).predictors.Sublist f.predictors := by
      rw [predictors_erase]
      exact List.erase_sublist
    refine (h.ordered.sublist hsub).imp_of_mem fun hu hv ⟨i, j, hi, hj, hij⟩ => ?_
    have hne : ∀ {v}, v ∈ (f.erase t).predictors → erasure t ≠ erasure v := by
      rintro v hv he
      exact (mem_erase_iff.mp hv).1 (Change.erasure.inj he).symm
    exact ⟨i, j, hi.append (hne hu), hj.append (hne hv), hij⟩
  response_eq := by rw [responseTerm?_erase, h.response_eq]
  released_iff := by
    rw [released_erase_iff, h.released_iff, h.response_eq, h.mem_iff]
    simp only [Change.withdraws_append_iff]
    constructor
    · rintro (⟨u, hu, hw⟩ | ⟨ht, hr⟩)
      · exact ⟨u, hu, .inl hw⟩
      · obtain ⟨i, hi⟩ := Change.exists_entersAt ht
        exact ⟨t, hr, .inr ⟨rfl, i, hi.inserted⟩⟩
    · rintro ⟨u, hu, hw | ⟨hc, i, hi⟩⟩
      · exact .inl ⟨u, hu, hw⟩
      · obtain rfl := Change.erasure.inj hc
        by_cases hlast : last? changes t = some (insertion t)
        · exact .inr ⟨hlast, hu⟩
        · obtain ⟨k, hik, hk⟩ := Change.exists_erasure hlast hi
          exact .inl ⟨t, hu, i, k, hik, hi, hk⟩

theorem apply (h : Reflects response changes f) (change : Change) :
    Reflects response (changes ++ [change]) (change.apply f) := by
  cases change with
  | insertion t => exact h.insert t
  | erasure t => exact h.erase t

theorem foldl (h : Reflects response changes f) (more : List Change) :
    Reflects response (changes ++ more) (more.foldl Change.apply f) := by
  induction more generalizing changes f with
  | nil => rwa [List.append_nil]
  | cons change more ih => simpa using ih (h.apply change)

end Reflects

theorem edit_eq_foldl (f : Formula) (edit : Edit) :
    f.edit edit = edit.changes.foldl Change.apply f := by
  cases edit with
  | add t => rw [edit, add, Edit.changes, List.foldl_map]; rfl
  | remove t => rw [edit, remove, Edit.changes, List.foldl_map]; rfl

theorem run_eq_foldl (f : Formula) (script : List Edit) :
    f.run script = (script.flatMap Edit.changes).foldl Change.apply f := by
  rw [List.foldl_flatMap]
  exact congrArg (fun step => script.foldl step f) (funext₂ edit_eq_foldl)

/-! ## Edits without effect and edits in another order -/

/-- The edits that have no effect, and the removals, which may change places. -/
structure EditLaws (f : Formula) : Prop where
  add_present : ∀ t : Term, (∀ u ∈ t.summands, u ∈ f.predictors) → f.add t = f
  remove_absent : ∀ t : Term, (∀ u ∈ t.summands, u ∉ f.predictors) → f.remove t = f
  remove_remove : ∀ t : Term, (f.remove t).remove t = f.remove t
  remove_comm : ∀ t u : Term, (f.remove t).remove u = (f.remove u).remove t

theorem insert_of_mem (h : t ∈ f.predictors) : f.insert t = f := dif_pos h

theorem erase_of_not_mem (h : t ∉ f.predictors) : f.erase t = f := if_neg h

theorem remove_eq (r : Response) (t : Term) :
    r.remove t = ⟨r.term, r.released || decide (r.term = t)⟩ := by
  unfold Response.remove
  split
  · next h => simp [h]
  · next h => simp [h]

theorem remove_right_comm (r : Response) (t u : Term) :
    (r.remove t).remove u = (r.remove u).remove t := by
  simp only [remove_eq, Bool.or_right_comm]

theorem erase_comm (f : Formula) (t u : Term) : (f.erase t).erase u = (f.erase u).erase t := by
  by_cases htu : t = u
  · rw [htu]
  · refine Formula.ext ?_ ?_
    · simp only [response_erase, mem_erase_iff]
      by_cases ht : t ∈ f.predictors <;> by_cases hu : u ∈ f.predictors <;>
        simp [ht, hu, htu, Ne.symm htu, remove_right_comm, Function.comp_def]
    · simp only [predictors_erase, List.erase_comm]

theorem mem_foldl_erase_iff {terms : List Term} :
    u ∈ (terms.foldl erase f).predictors ↔ u ∈ f.predictors ∧ u ∉ terms := by
  induction terms generalizing f with
  | nil => simp
  | cons t terms ih =>
    rw [List.foldl_cons, ih, mem_erase_iff, List.mem_cons, not_or]
    exact ⟨fun ⟨⟨hne, hu⟩, hn⟩ => ⟨hu, hne, hn⟩, fun ⟨hu, hne, hn⟩ => ⟨⟨hne, hu⟩, hn⟩⟩

theorem foldl_erase_of_absent {terms : List Term} (h : ∀ u ∈ terms, u ∉ f.predictors) :
    terms.foldl erase f = f := by
  induction terms with
  | nil => rfl
  | cons t terms ih =>
    obtain ⟨ht, hrest⟩ := List.forall_mem_cons.mp h
    rw [List.foldl_cons, erase_of_not_mem ht, ih hrest]

theorem foldl_insert_of_present {terms : List Term} (h : ∀ u ∈ terms, u ∈ f.predictors) :
    terms.foldl insert f = f := by
  induction terms with
  | nil => rfl
  | cons t terms ih =>
    obtain ⟨ht, hrest⟩ := List.forall_mem_cons.mp h
    rw [List.foldl_cons, insert_of_mem ht, ih hrest]

theorem editLaws (f : Formula) : f.EditLaws where
  add_present t h := foldl_insert_of_present h
  remove_absent t h := foldl_erase_of_absent h
  remove_remove t := foldl_erase_of_absent fun u hu hmem => (mem_foldl_erase_iff.mp hmem).2 hu
  remove_comm t u := by
    have hcomm : RightCommutative erase := ⟨erase_comm⟩
    rw [remove, remove, remove, remove, ← List.foldl_append, ← List.foldl_append]
    exact List.perm_append_comm.foldl_eq f

/-- The predictors that a script leads to are the terms whose last change is an insertion, each
once, in the order of their earliest insertions after their latest erasures. The response stays,
and it is released exactly when it has been erased after an insertion of it. -/
theorem run_ofResponse_reflects (response : Option Term) (script : List Edit) :
    ((ofResponse response).run script).predictors.Nodup ∧
      Reflects response (script.flatMap Edit.changes) ((ofResponse response).run script) ∧
      ((ofResponse response).run script).EditLaws := by
  refine ⟨Formula.nodup _, ?_, editLaws _⟩
  rw [run_eq_foldl]
  exact (Reflects.nil response).foldl _

/-- A term that is removed and added again moves to the end. -/
example : ((ofResponse none).run [.add (.variable "a"), .add (.variable "b"),
    .remove (.variable "a"), .add (.variable "a")]).predictors =
      [.variable "b", .variable "a"] := by
  decide

end Formula

end ModelFormula
