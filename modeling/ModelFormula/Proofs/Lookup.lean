import Mathlib.Data.List.Nodup
import ModelFormula.Plan.OfTerm

/-! # Finding columns

Names in a schema are distinct, so a name stands at one position at most.
-/

namespace ModelFormula.Schema

variable {s : Schema} {name : String} {field : Field} {i : Nat}

theorem field_unique {field' : Field} (h : field ∈ s.fields) (h' : field' ∈ s.fields)
    (hn : field.name = field'.name) : field = field' :=
  List.inj_on_of_nodup_map s.nodup_names h h' hn

theorem field?_eq_some_iff : s.field? name = some field ↔ field ∈ s.fields ∧ field.name = name := by
  unfold field?
  constructor
  · intro h
    exact ⟨List.mem_of_find?_eq_some h, by simpa using List.find?_some h⟩
  · rintro ⟨hmem, hname⟩
    cases h : s.fields.find? fun field => field.name == name with
    | none =>
      have hnone := List.find?_eq_none.mp h field hmem
      simp [hname] at hnone
    | some found =>
      have hfound : found.name = name := by simpa using List.find?_some h
      rw [field_unique (List.mem_of_find?_eq_some h) hmem (hfound.trans hname.symm)]

theorem indexOf?_eq_some_iff : s.indexOf? name = some i ↔
    ∃ field, s.fields[i]? = some field ∧ field.name = name := by
  unfold indexOf?
  rw [List.findIdx?_eq_some_iff_getElem]
  constructor
  · rintro ⟨hi, hname, -⟩
    exact ⟨s.fields[i], List.getElem?_eq_getElem hi, by simpa using hname⟩
  · rintro ⟨field, hget, hname⟩
    obtain ⟨hi, rfl⟩ := List.getElem?_eq_some_iff.mp hget
    refine ⟨hi, by simpa using hname, fun j hj hj' => ?_⟩
    have hdiff : s.fields[j].name ≠ s.fields[i].name :=
      List.pairwise_iff_getElem.mp (List.pairwise_map.mp s.nodup_names) j i _ hi hj
    exact hdiff (by simpa [hname] using hj')

theorem lookup_eq_ok_iff : s.lookup name = .ok (i, field) ↔
    s.fields[i]? = some field ∧ field.name = name ∧ field.type ≠ .string := by
  unfold lookup
  constructor
  · intro h
    split at h
    · next index found hindex hfound =>
      split at h
      · cases h
      · next htype =>
        obtain ⟨rfl, rfl⟩ : index = i ∧ found = field := by simpa using h
        obtain ⟨hmem, hname⟩ := field?_eq_some_iff.mp hfound
        obtain ⟨other, hget, hother⟩ := indexOf?_eq_some_iff.mp hindex
        obtain rfl := field_unique hmem (List.mem_of_getElem? hget) (hname.trans hother.symm)
        exact ⟨hget, hname, htype⟩
    · cases h
  · rintro ⟨hget, hname, htype⟩
    rw [indexOf?_eq_some_iff.mpr ⟨field, hget, hname⟩,
      field?_eq_some_iff.mpr ⟨List.mem_of_getElem? hget, hname⟩]
    exact if_neg htype

end ModelFormula.Schema
