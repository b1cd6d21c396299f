import ModelFormula.Proofs.NormalForm
import ModelFormula.Proofs.Regular
import ModelFormula.Proofs.Selections

/-! # The law of crossings

A crossing is added as the interactions of all non-empty selections of its operands, in order. When
the operands are different and none of them is an interaction, these interactions are all different,
from the operands themselves up to the interaction of all of them.
-/

namespace ModelFormula

theorem eraseDups_of_nodup {α : Type} [BEq α] [LawfulBEq α] {l : List α} (h : l.Nodup) :
    l.eraseDups = l := by
  induction l with
  | nil => rfl
  | cons a l ih =>
    obtain ⟨ha, hl⟩ := List.nodup_cons.mp h
    have hkeep : (l.filter fun b => !b == a) = l := by
      rw [List.filter_eq_self]
      intro b hb
      have hne : b ≠ a := fun he => ha (he ▸ hb)
      simpa using hne
    rw [List.eraseDups_cons, hkeep, ih hl]

namespace Term

variable {operands : List Term} {s t : List Nat} {i : Nat}

/-! ## Selected operands -/

theorem pick_range (operands : List Term) :
    pick operands (List.range operands.length) = operands := by
  induction operands with
  | nil => rfl
  | cons t operands ih =>
    rw [List.length_cons, List.range_succ_eq_map, pick, List.filterMap_cons, List.filterMap_map]
    exact congrArg (t :: ·) ih

theorem pick_cons (h : i < operands.length) :
    pick operands (i :: s) = operands[i] :: pick operands s := by
  have hget : operands[i]? = some operands[i] := List.getElem?_eq_getElem h
  rw [pick, List.filterMap_cons, hget]
  rfl

theorem pick_inj (hd : operands.Nodup) (hs : ∀ i ∈ s, i < operands.length)
    (ht : ∀ i ∈ t, i < operands.length) (he : pick operands s = pick operands t) : s = t := by
  induction s generalizing t with
  | nil =>
    cases t with
    | nil => rfl
    | cons j t =>
      rw [pick_cons (ht j List.mem_cons_self)] at he
      cases he
  | cons i s ih =>
    obtain ⟨hi, hs⟩ := List.forall_mem_cons.mp hs
    rw [pick_cons hi] at he
    cases t with
    | nil => cases he
    | cons j t =>
      obtain ⟨hj, ht⟩ := List.forall_mem_cons.mp ht
      rw [pick_cons hj] at he
      obtain ⟨hij, hrest⟩ := List.cons.inj he
      rw [hd.getElem_inj_iff.mp hij, ih hs ht hrest]

theorem interactionOf_inj {terms : List Term} (h : ∀ t ∈ operands, ∀ inner, t ≠ .interaction inner)
    (h' : ∀ t ∈ terms, ∀ inner, t ≠ .interaction inner)
    (he : interactionOf operands = interactionOf terms) : operands = terms := by
  have hfactors : ∀ {terms : List Term}, (∀ t ∈ terms, ∀ inner, t ≠ .interaction inner) →
      (interactionOf terms).factors = terms := by
    intro terms h
    have hself : ∀ t ∈ terms, t.factors = [t] := fun t ht => factors_of_ne_interaction (h t ht)
    rw [factors_interactionOf, List.flatMap_congr hself, List.flatMap_singleton']
    intro t ht u hu
    rw [hself t ht, List.mem_singleton] at hu
    exact hu ▸ h t ht
  rw [← hfactors h, he, hfactors h']

/-! ## All interactions of a crossing -/

def interactions (operands : List Term) (selections : List (List Nat)) : List Term :=
  selections.map fun selection => interactionOf (pick operands selection)

/-- The list has the interactions of all selections of the operands, in order and without repeats:
first the operands themselves, last the interaction of all of them. -/
structure ListsInteractions (operands terms : List Term) : Prop where

  eq : ∀ selections, Enumerates operands.length selections →
    terms = interactions operands selections

  nodup : terms.Nodup

  length : terms.length = 2 ^ operands.length - 1

  first : terms.take operands.length = operands

  last : operands ≠ [] → terms.getLast? = some (interactionOf operands)

theorem crossingTerms_eq (operands : List Term) : crossingTerms operands =
    (interactions operands (allSelections operands.length)).eraseDups := by
  rw [crossingTerms, interactions, allSelections, List.map_flatMap]

theorem nodup_interactions (hd : operands.Nodup)
    (h : ∀ t ∈ operands, ∀ inner, t ≠ .interaction inner) :
    (interactions operands (allSelections operands.length)).Nodup := by
  have hall := enumerates_allSelections operands.length
  refine List.Nodup.map_on (fun s hs t ht he => ?_) hall.nodup
  have hpick := interactionOf_inj (fun u hu => h u (pick_subset hu))
    (fun u hu => h u (pick_subset hu)) he
  exact pick_inj hd ((hall.mem_iff s).mp hs).lt ((hall.mem_iff t).mp ht).lt hpick

theorem interactions_singletons (h : ∀ t ∈ operands, ∀ inner, t ≠ .interaction inner) :
    interactions operands ((List.range operands.length).map ([·])) = operands := by
  rw [interactions, List.map_map]
  refine List.ext_getElem (by simp) fun i hi hi' => ?_
  have hpick : pick operands [i] = [operands[i]] := pick_cons hi'
  have hself := factors_of_ne_interaction (h operands[i] (List.getElem_mem hi'))
  simp [hpick, interactionOf, hself]

/-- A crossing of different operands, of which none is an interaction, loses nothing. -/
theorem listsInteractions_crossingTerms (hd : operands.Nodup)
    (h : ∀ t ∈ operands, ∀ inner, t ≠ .interaction inner) :
    ListsInteractions operands (crossingTerms operands) := by
  have hnodup := nodup_interactions hd h
  have heq : crossingTerms operands = interactions operands (allSelections operands.length) := by
    rw [crossingTerms_eq, eraseDups_of_nodup hnodup]
  rw [heq]
  refine ⟨fun selections hs => ?_, hnodup, ?_, ?_, fun hne => ?_⟩
  · rw [hs.eq (enumerates_allSelections _)]
  · rw [interactions, List.length_map, length_allSelections]
  · cases hl : operands.length with
    | zero => rw [List.take_zero, List.length_eq_zero_iff.mp hl]
    | succ n =>
      obtain ⟨more, hmore⟩ := exists_allSelections_eq_append n
      have hsingle := interactions_singletons h
      rw [hl] at hsingle
      rw [hmore, interactions, List.map_append, ← interactions, hsingle, ← hl, List.take_left]
  · obtain ⟨n, hl⟩ := Nat.exists_eq_succ_of_ne_zero (List.length_pos_iff.mpr hne).ne'
    obtain ⟨before, hbefore⟩ := exists_allSelections_eq_concat n
    rw [hl, hbefore, interactions, List.map_append, List.map_singleton, List.getLast?_concat,
      ← Nat.succ_eq_add_one, ← hl, pick_range]

/-- A chain of different factors has the summands of the crossing of all of them, also when it has
only one. -/
theorem summands_crossingOf (hd : operands.Nodup) (hf : ∀ t ∈ operands, t.isFactor = true) :
    (crossingOf operands).summands = crossingTerms operands := by
  rw [crossingOf, eraseDups_of_nodup hd]
  split
  · next t =>
    have ht := hf t (List.mem_singleton_self t)
    have hterms : crossingTerms [t] = [interactionOf [t]].eraseDups := rfl
    have hself : interactionOf [t] = t := by simp [interactionOf, factors_of_isFactor ht]
    rw [hterms, hself, eraseDups_of_nodup (List.nodup_singleton t)]
    cases t <;> first | rfl | cases ht
  · rfl

end Term

namespace Formula

open Term Grammar

variable {f : Formula} {operands terms : List Term}

theorem predictors_foldl_insert (h : (f.predictors ++ terms).Nodup) :
    (terms.foldl insert f).predictors = f.predictors ++ terms := by
  induction terms generalizing f with
  | nil => rw [List.foldl_nil, List.append_nil]
  | cons t terms ih =>
    have ht : t ∉ f.predictors := fun hmem =>
      (List.nodup_append.mp h).2.2 t hmem t List.mem_cons_self rfl
    have hinsert : (f.insert t).predictors = f.predictors ++ [t] := predictors_insert_of_not_mem ht
    rw [List.foldl_cons, ih (by simpa [hinsert] using h), hinsert, List.append_assoc,
      List.singleton_append]

theorem predictors_add_of_nil (hf : f.predictors = []) {term : Term} (hd : term.summands.Nodup) :
    (f.add term).predictors = term.summands := by
  have hnodup : (f.predictors ++ term.summands).Nodup := by simpa [hf] using hd
  rw [add, predictors_foldl_insert hnodup, hf, List.nil_append]

/-- A crossing is added to an empty formula as the interactions of all selections of its operands,
in order and each as often as it comes first. Different operands that are no interactions lose
none of them, and so do the factors of a chain that is read. -/
theorem add_crossing_listsInteractions (operands : List Term) :
    (∃! selections, Enumerates operands.length selections) ∧
    (∀ f : Formula, f.predictors = [] → ∀ selections, Enumerates operands.length selections →
      (f.add (.crossing operands)).predictors = (interactions operands selections).eraseDups) ∧
    (operands.Nodup → (∀ t ∈ operands, ∀ inner, t ≠ .interaction inner) →
      ∀ f : Formula, f.predictors = [] →
        ListsInteractions operands (f.add (.crossing operands)).predictors) ∧
    ∀ first others cs ds g₁ g₂ g₃, operands = first :: others → operands.Nodup →
      WritesFactor first cs → WritesLinks ['&', '&'] others ds → IsGap g₁ → IsGap g₂ → IsGap g₃ →
        ∃ f, parse (String.ofList (g₁ ++ '~' :: (g₂ ++ (cs ++ ds ++ g₃)))) = .ok f ∧
          f.response = none ∧ ListsInteractions operands f.predictors := by
  have hall := enumerates_allSelections operands.length
  refine ⟨⟨_, hall, fun selections hs => hs.eq hall⟩, ?_, ?_, ?_⟩
  · intro f hf selections hs
    rw [hs.eq hall, ← crossingTerms_eq]
    refine predictors_add_of_nil hf ?_
    rw [summands, crossingTerms]
    exact nodup_eraseDups _
  · intro hd h f hf
    have hlists := listsInteractions_crossingTerms hd h
    have hpredictors : (f.add (.crossing operands)).predictors = crossingTerms operands :=
      predictors_add_of_nil hf hlists.nodup
    rw [hpredictors]
    exact hlists
  · rintro first others cs ds g₁ g₂ g₃ rfl hd hfirst hothers h₁ h₂ h₃
    have hfactors : ∀ t ∈ first :: others, t.isFactor = true := List.forall_mem_cons.mpr
      ⟨(expressible_of_writesFactor hfirst).1, isFactor_of_writesLinks hothers⟩
    have hne : ∀ t ∈ first :: others, ∀ inner, t ≠ .interaction inner := by
      rintro t ht inner rfl
      exact absurd (hfactors _ ht) (by simp [isFactor])
    have hlists := listsInteractions_crossingTerms hd hne
    have hsummands := summands_crossingOf hd hfactors
    let f := (ofResponse none).add (crossingOf (first :: others))
    have hresponse : f.responseTerm? = none := responseTerm?_edit (ofResponse none) (.add _)
    have hpredictors : f.predictors = crossingTerms (first :: others) := by
      rw [← hsummands] at hlists ⊢
      exact predictors_add_of_nil rfl hlists.nodup
    have hwrites : WritesFormula none [.add (crossingOf (first :: others))]
        (String.ofList (g₁ ++ '~' :: (g₂ ++ (cs ++ ds ++ g₃)))).toList := by
      have hright : WritesRight [.add (crossingOf (first :: others))] (cs ++ ds) := by
        simpa using WritesRight.unsigned (.add (.crossing hfirst hothers)) .nil
      rw [String.toList_ofList]
      exact .mk h₁ .none h₂ hright h₃
    refine ⟨f, parse_eq_ok_iff.mpr ⟨_, _, hwrites, rfl⟩, Option.map_eq_none_iff.mp hresponse, ?_⟩
    rw [hpredictors]
    exact hlists

/-- The seven interactions of three factors, read from a text and added as a crossing. -/
theorem add_crossing_listsInteractions_three :
    let a : Term := .variable "a"
    let call : Term := .function "log" (.variable "b c")
    let d : Term := .variable "d"
    let terms := [a, call, d, .interaction [a, call], .interaction [a, d], .interaction [call, d],
      .interaction [a, call, d]]
    ListsInteractions [a, call, d] terms ∧
      (({} : Formula).add (.crossing [a, call, d])).predictors = terms ∧
      ∃ f, parse "~ a && log(`b c`)&& d" = .ok f ∧ f.predictors = terms := by
  intro a call d terms
  have ha : WritesFactor a ['a'] := .column (.plain (by decide))
  have hd : WritesFactor d ['d'] := .column (.plain (by decide))
  have harg : WritesFactor (.variable "b c") "`b c`".toList := .column (.quoted (by decide))
  have hcall : WritesFactor call "log(`b c`)".toList :=
    .call (.plain (by decide)) isGap_nil isGap_nil (.interaction harg .nil) rfl isGap_nil
  have hlinks : WritesLinks ['&', '&'] [call, d] " && log(`b c`)&& d".toList :=
    .cons isGap_space isGap_space hcall (.cons isGap_nil isGap_space hd .nil)
  obtain ⟨-, -, hlists, hread⟩ := add_crossing_listsInteractions [a, call, d]
  have hadd : (({} : Formula).add (.crossing [a, call, d])).predictors = terms := by decide
  have hterms : ListsInteractions [a, call, d] terms := by
    have h := hlists (by decide) (by simp [a, call, d]) {} rfl
    rwa [hadd] at h
  obtain ⟨f, hf, -, hpredictors⟩ :=
    hread a [call, d] _ _ [] [' '] [] rfl (by decide) ha hlinks isGap_nil isGap_space isGap_nil
  have hall := enumerates_allSelections 3
  exact ⟨hterms, hadd, f, hf, (hpredictors.eq _ hall).trans (hterms.eq _ hall).symm⟩

/-- An interaction that an operand brings in already is not listed again. -/
example : Term.crossingTerms [.interaction [.variable "a", .variable "b"], .variable "a",
    .variable "b"] = [.interaction [.variable "a", .variable "b"], .variable "a", .variable "b",
      .interaction [.variable "a", .variable "b", .variable "a"],
      .interaction [.variable "a", .variable "b", .variable "b"],
      .interaction [.variable "a", .variable "b", .variable "a", .variable "b"]] := by decide

end Formula

end ModelFormula
