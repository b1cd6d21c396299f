import Mathlib.Data.List.Pairwise
import ModelFormula.Proofs.MatrixAccess
import ModelFormula.Proofs.OutputLayout
import ModelFormula.Proofs.TermValue

/-! # Names in a design matrix

A column of a design matrix is found by its name. The names of the outputs that a predictor keeps
are distinct, for they are in the output schema; the intercept and the indicators of categories get
names of their own, which may be those of other columns. Then the name finds the first of them.
-/

namespace ModelFormula

/-! ## The names that a predictor brings -/

def Encoding.indicated : Encoding → List String → List String
  | .ordinal, _ => []
  | .oneHot, levels => levels
  | .dummy, levels => levels.tail

namespace Term

variable {s : Schema} {t u : Term} {p : TermPlan} {encoding : Encoding} {name : String}

def indicatorNames (s : Schema) (encoding : Encoding) (t : Term) : List String :=
  (encoding.indicated ((t.levels? s).getD [])).map fun level => t.label ++ "_" ++ level

/-- Whether a predictor is a category that is told by indicators. -/
def IsIndicated (s : Schema) (encoding : Encoding) (t : Term) : Prop :=
  encoding ≠ .ordinal ∧ t.levels? s ≠ none

instance : Decidable (t.IsIndicated s encoding) := inferInstanceAs (Decidable (_ ∧ _))

/-- The names of the outputs that stay the names of columns. -/
def keptNames (s : Schema) (encoding : Encoding) (t : Term) : List String :=
  if t.IsIndicated s encoding then [] else t.outputNames s

theorem sublist_keptNames : (t.keptNames s encoding).Sublist (t.outputNames s) := by
  unfold keptNames
  split
  · exact List.nil_sublist _
  · exact List.Sublist.refl _

theorem indicated_nil (encoding : Encoding) : encoding.indicated [] = [] := by
  cases encoding <;> rfl

theorem indicatorNames_of_not_isIndicated (h : ¬ t.IsIndicated s encoding) :
    t.indicatorNames s encoding = [] := by
  unfold indicatorNames
  rw [IsIndicated, not_and_or, not_not, not_not] at h
  rcases h with rfl | h
  · rfl
  · rw [h, Option.getD_none, indicated_nil, List.map_nil]

theorem disjoint_keptNames_indicatorNames :
    List.Disjoint (t.keptNames s encoding) (t.indicatorNames s encoding) := by
  by_cases h : t.IsIndicated s encoding
  · rw [keptNames, if_pos h]
    exact List.disjoint_nil_left _
  · rw [indicatorNames_of_not_isIndicated h]
    exact List.disjoint_nil_right _

theorem sublist_indicated (encoding : Encoding) (levels : List String) :
    (encoding.indicated levels).Sublist levels := by
  cases encoding with
  | ordinal => exact List.nil_sublist _
  | oneHot => exact List.Sublist.refl _
  | dummy => exact List.tail_sublist _

theorem levelsOk_of_levels? {levels : List String} (h : t.levels? s = some levels) :
    levels ≠ [] ∧ levels.Nodup := by
  cases t with
  | «variable» name =>
    obtain ⟨field, hfield, hlevels⟩ := Option.bind_eq_some_iff.mp h
    exact s.levelsOk field (Schema.field?_eq_some_iff.mp hfield).1 levels hlevels
  | function | interaction | crossing | dot | intercept => cases h

theorem nodup_indicatorNames : (t.indicatorNames s encoding).Nodup := by
  unfold indicatorNames
  cases hlevels : t.levels? s with
  | none => simp [indicated_nil]
  | some levels =>
    have hnodup := (levelsOk_of_levels? hlevels).2.sublist (sublist_indicated encoding levels)
    refine hnodup.map fun level level' h => ?_
    simpa [String.append_assoc] using h

theorem names_ofCategory {levels : List String} (i : Nat) (he : encoding ≠ .ordinal)
    (hne : levels ≠ []) : (DesignColumn.ofCategory encoding name i levels).map Prod.fst =
      (encoding.indicated levels).map fun level => name ++ "_" ++ level := by
  have hpos : 0 < levels.length := List.length_pos_iff.mpr hne
  have hdrop : encoding.indicated levels =
      (levels.zipIdx.drop (levels.length - encoding.width levels.length)).map Prod.fst := by
    rw [List.map_drop, List.zipIdx_map_fst]
    cases encoding with
    | ordinal => exact absurd rfl he
    | oneHot => simp [Encoding.width, Encoding.indicated]
    | dummy =>
      have hone : levels.length - (levels.length - 1) = 1 := by omega
      rw [Encoding.width, hone, List.drop_one, Encoding.indicated]
  rw [hdrop]
  cases encoding with
  | ordinal => exact absurd rfl he
  | oneHot | dummy =>
    rw [DesignColumn.ofCategory, List.map_map, List.map_map]
    rfl

theorem names_ofPlan_interactionPlan {terms : List Term} {operands : List Operand} :
    (DesignColumn.ofPlan encoding (interactionPlan terms operands)).map Prod.fst =
      (interactionPlan terms operands).outputs.map Field.name := by
  unfold interactionPlan
  split
  · rfl
  · exact List.map_fst_zip (by simp)

theorem levels?_of_mem {field : Field} (hf : field ∈ s.fields) :
    levels? s (.variable field.name) = field.type.levels? := by
  rw [levels?, Schema.field?_eq_some_iff.mpr ⟨hf, rfl⟩, Option.bind_some]

/-- The columns of a planned predictor have the names of its indicators or of its outputs. -/
theorem Planned.names_ofPlan (h : Planned s t p) : (DesignColumn.ofPlan encoding p).map Prod.fst =
    t.keptNames s encoding ++ t.indicatorNames s encoding := by
  by_cases ht : t.IsIndicated s encoding
  · rw [keptNames, if_pos ht, indicatorNames, List.nil_append]
    obtain ⟨he, hlevels⟩ := ht
    cases h with
    | @category i field levels hget hl =>
      rw [levels?_of_mem (List.mem_of_getElem? hget), hl, label_variable]
      exact names_ofCategory i he (s.levelsOk field (List.mem_of_getElem? hget) levels hl).1
    | number hget _ hl => exact absurd (levels?_of_mem (List.mem_of_getElem? hget) ▸ hl) hlevels
    | function | interaction => exact absurd rfl hlevels
  · rw [indicatorNames_of_not_isIndicated ht, List.append_nil, keptNames, if_neg ht,
      ← h.names_outputs]
    cases h with
    | number | function => rfl
    | @category i field levels hget hl =>
      have hlevels : levels? s (.variable field.name) ≠ none := by
        rw [levels?_of_mem (List.mem_of_getElem? hget), hl]
        exact Option.some_ne_none _
      obtain rfl : encoding = .ordinal := by
        by_contra he
        exact ht ⟨he, hlevels⟩
      rfl
    | interaction => exact names_ofPlan_interactionPlan

/-! ## The name of the intercept -/

theorem colon_mem_intercalate {parts : List String} (h : 2 ≤ parts.length) :
    ':' ∈ (String.intercalate "::" parts).toList := by
  obtain ⟨part, other, parts, rfl⟩ : ∃ part other rest, parts = part :: other :: rest := by
    match parts, h with
    | part :: other :: rest, _ => exact ⟨part, other, rest, rfl⟩
  rw [String.toList_intercalate, List.map_cons, List.map_cons, List.intercalate_cons_cons]
  simp

theorem length_of_mem_choices {α : Type} {xss : List (List α)} {xs : List α}
    (h : xs ∈ choices xss) : xs.length = xss.length := by
  induction xss generalizing xs with
  | nil =>
    rw [List.mem_singleton.mp h]
    rfl
  | cons ys xss ih =>
    obtain ⟨y, -, hxs⟩ := List.mem_flatMap.mp h
    obtain ⟨rest, hrest, rfl⟩ := List.mem_map.mp hxs
    rw [List.length_cons, List.length_cons, ih hrest]

/-- Of the terms that bring outputs, only the column can have the name of the intercept. -/
theorem eq_of_interceptName_mem (h : t.IsPlannable s)
    (hmem : DesignColumn.interceptName ∈ t.outputNames s) :
    t = .variable DesignColumn.interceptName := by
  cases h with
  | column => rw [List.mem_singleton.mp hmem]
  | @function name arg =>
    have hparen : '(' ∈ (label (.function name arg)).toList := by simp [label, charsWith]
    rw [← List.mem_singleton.mp hmem] at hparen
    exact absurd hparen (by decide)
  | @interaction terms hl =>
    obtain ⟨parts, hparts, he⟩ := List.mem_map.mp hmem
    have hlength : 2 ≤ parts.length := by
      rw [length_of_mem_choices hparts, List.length_map]
      exact hl
    have hcolon := colon_mem_intercalate hlength
    rw [he] at hcolon
    exact absurd hcolon (by decide)

theorem interceptName_not_mem_indicatorNames :
    DesignColumn.interceptName ∉ t.indicatorNames s encoding := by
  intro h
  obtain ⟨level, -, he⟩ := List.mem_map.mp h
  have hunderscore : '_' ∈ DesignColumn.interceptName.toList := by
    rw [← he]
    simp
  exact absurd hunderscore (by decide)

end Term

/-! ## When names are distinct -/

namespace Formula

open Term (outputNames)

variable {f : Formula} {s : Schema} {b : BoundFormula} {t u : Term} {encoding : Encoding}

/-- The indicators are called like nothing else in the design matrix, and neither is the
intercept. -/
structure NamesApart (s : Schema) (encoding : Encoding) (f : Formula) : Prop where

  intercept : .intercept ∈ f.predictors → .variable DesignColumn.interceptName ∈ f.predictors →
    (Term.variable DesignColumn.interceptName).IsIndicated s encoding

  kept : ∀ t ∈ f.predictors, ∀ u ∈ f.predictors,
    List.Disjoint (t.indicatorNames s encoding) (u.keptNames s encoding)

  indicators : ∀ t ∈ f.predictors, ∀ u ∈ f.predictors, t ≠ u →
    List.Disjoint (t.indicatorNames s encoding) (u.indicatorNames s encoding)

def designNames (s : Schema) (encoding : Encoding) (f : Formula) : List String :=
  (if f.hasIntercept then [DesignColumn.interceptName] else []) ++
    f.predictors.flatMap fun t => t.keptNames s encoding ++ t.indicatorNames s encoding

theorem names_predictors {terms : List Term} {plans : List TermPlan}
    (h : List.Forall₂ (Term.Planned s) (terms.filter (· ≠ .intercept)) plans) :
    (plans.flatMap (DesignColumn.ofPlan encoding)).map Prod.fst =
      terms.flatMap fun t => t.keptNames s encoding ++ t.indicatorNames s encoding := by
  induction terms generalizing plans with
  | nil =>
    cases h
    rfl
  | cons t terms ih =>
    by_cases ht : t = .intercept
    · subst ht
      have hnone : ¬ Term.intercept.IsIndicated s encoding := fun h => h.2 rfl
      rw [List.flatMap_cons, Term.keptNames, if_neg hnone,
        Term.indicatorNames_of_not_isIndicated hnone]
      exact ih h
    · rw [List.filter_cons_of_pos (by simpa using ht)] at h
      obtain ⟨p, plans, hp, hplans, rfl⟩ := List.forall₂_cons_left_iff.mp h
      rw [List.flatMap_cons, List.map_append, hp.names_ofPlan, ih hplans, List.flatMap_cons]

theorem names_designColumns (hb : f.bind s = .ok b) (encoding : Encoding) :
    (b.designColumns encoding).map Prod.fst = b.formula.designNames s encoding := by
  obtain ⟨-, -, -, hpredictors, -⟩ := bind_iff.mp hb
  rw [BoundFormula.designColumns, List.map_append, names_predictors hpredictors, designNames]
  unfold BoundFormula.hasIntercept
  split <;> rfl

theorem disjoint_of_nodup_flatMap {terms : List Term} {g : Term → List String}
    (h : (terms.flatMap g).Nodup) (ht : t ∈ terms) (hu : u ∈ terms) (hne : t ≠ u) :
    List.Disjoint (g t) (g u) := by
  have : Std.Symm (Function.onFun List.Disjoint g) := ⟨fun _ _ h => List.disjoint_comm.mp h⟩
  exact (List.nodup_flatMap.mp h).2.forall ht hu hne

theorem mem_outputTerms_of_mem (h : t ∈ f.predictors) : t ∈ f.outputTerms := by
  unfold outputTerms
  by_cases ht : f.responseTerm? = some t
  · simp [ht]
  · simp [h, ht]

namespace WellTyped

theorem nodup_keptNames (h : f.WellTyped s) (ht : t ∈ f.predictors) :
    (t.keptNames s encoding).Nodup := by
  have hnodup := (List.nodup_flatMap.mp h.names_nodup).1 t (mem_outputTerms_of_mem ht)
  exact hnodup.sublist Term.sublist_keptNames

theorem disjoint_keptNames (h : f.WellTyped s) (ht : t ∈ f.predictors) (hu : u ∈ f.predictors)
    (hne : t ≠ u) : List.Disjoint (t.keptNames s encoding) (u.keptNames s encoding) := by
  have hdisjoint : List.Disjoint (t.outputNames s) (u.outputNames s) :=
    disjoint_of_nodup_flatMap h.names_nodup (mem_outputTerms_of_mem ht)
      (mem_outputTerms_of_mem hu) hne
  apply List.disjoint_of_subset_left Term.sublist_keptNames.subset
  exact List.disjoint_of_subset_right Term.sublist_keptNames.subset hdisjoint

/-- Predictors share no names as long as indicators do not. -/
theorem disjoint_names_iff (h : f.WellTyped s) (ht : t ∈ f.predictors) (hu : u ∈ f.predictors)
    (hne : t ≠ u) : List.Disjoint (t.keptNames s encoding ++ t.indicatorNames s encoding)
      (u.keptNames s encoding ++ u.indicatorNames s encoding) ↔
        List.Disjoint (t.indicatorNames s encoding) (u.keptNames s encoding) ∧
          List.Disjoint (u.indicatorNames s encoding) (t.keptNames s encoding) ∧
            List.Disjoint (t.indicatorNames s encoding) (u.indicatorNames s encoding) := by
  have hkept : List.Disjoint (t.keptNames s encoding) (u.keptNames s encoding) :=
    h.disjoint_keptNames ht hu hne
  have hcomm : List.Disjoint (t.keptNames s encoding) (u.indicatorNames s encoding) ↔
      List.Disjoint (u.indicatorNames s encoding) (t.keptNames s encoding) := List.disjoint_comm
  simp only [List.disjoint_append_left, List.disjoint_append_right, hkept, true_and, hcomm]

theorem nodup_flatMap_names_iff (h : f.WellTyped s) :
    (f.predictors.flatMap fun t => t.keptNames s encoding ++ t.indicatorNames s encoding).Nodup ↔
      (∀ t ∈ f.predictors, ∀ u ∈ f.predictors,
        List.Disjoint (t.indicatorNames s encoding) (u.keptNames s encoding)) ∧
          ∀ t ∈ f.predictors, ∀ u ∈ f.predictors, t ≠ u →
            List.Disjoint (t.indicatorNames s encoding) (u.indicatorNames s encoding) := by
  constructor
  · intro hnodup
    have hall {t u : Term} (ht : t ∈ f.predictors) (hu : u ∈ f.predictors) (hne : t ≠ u) :=
      (h.disjoint_names_iff ht hu hne).mp (disjoint_of_nodup_flatMap hnodup ht hu hne)
    refine ⟨fun t ht u hu => ?_, fun t ht u hu hne => (hall ht hu hne).2.2⟩
    by_cases hne : t = u
    · rw [hne]
      exact List.disjoint_comm.mp Term.disjoint_keptNames_indicatorNames
    · exact (hall ht hu hne).1
  · rintro ⟨hkept, hindicators⟩
    refine List.nodup_flatMap.mpr ⟨fun t ht => ?_, ?_⟩
    · exact (h.nodup_keptNames ht).append Term.nodup_indicatorNames
        Term.disjoint_keptNames_indicatorNames
    · refine f.nodup.pairwise_of_forall_ne fun t ht u hu hne => ?_
      exact (h.disjoint_names_iff ht hu hne).mpr
        ⟨hkept t ht u hu, hkept u hu t ht, hindicators t ht u hu hne⟩

theorem interceptName_mem_iff (h : f.WellTyped s) : DesignColumn.interceptName ∈
    (f.predictors.flatMap fun t => t.keptNames s encoding ++ t.indicatorNames s encoding) ↔
      .variable DesignColumn.interceptName ∈ f.predictors ∧
        ¬ (Term.variable DesignColumn.interceptName).IsIndicated s encoding := by
  simp only [List.mem_flatMap, List.mem_append, Term.interceptName_not_mem_indicatorNames,
    or_false]
  constructor
  · rintro ⟨t, ht, hname⟩
    have hne : t ≠ .intercept := by
      rintro rfl
      exact List.not_mem_nil (Term.sublist_keptNames.subset hname)
    obtain rfl := Term.eq_of_interceptName_mem
      (h.plannable t (List.mem_append_right _ ht) hne) (Term.sublist_keptNames.subset hname)
    refine ⟨ht, fun hindicated => ?_⟩
    rw [Term.keptNames, if_pos hindicated] at hname
    exact List.not_mem_nil hname
  · rintro ⟨ht, hindicated⟩
    refine ⟨_, ht, ?_⟩
    rw [Term.keptNames, if_neg hindicated]
    exact List.mem_singleton_self _

theorem nodup_designNames_iff (h : f.WellTyped s) :
    (f.designNames s encoding).Nodup ↔ f.NamesApart s encoding := by
  unfold designNames
  split
  · next hintercept =>
    rw [List.singleton_append, List.nodup_cons, h.interceptName_mem_iff, h.nodup_flatMap_names_iff,
      not_and, not_not]
    constructor
    · rintro ⟨hname, hkept, hindicators⟩
      exact ⟨fun _ => hname, hkept, hindicators⟩
    · rintro ⟨hname, hkept, hindicators⟩
      exact ⟨hname (of_decide_eq_true hintercept), hkept, hindicators⟩
  · next hintercept =>
    rw [List.nil_append, h.nodup_flatMap_names_iff]
    constructor
    · rintro ⟨hkept, hindicators⟩
      exact ⟨fun hmem => absurd (decide_eq_true hmem) hintercept, hkept, hindicators⟩
    · rintro ⟨-, hkept, hindicators⟩
      exact ⟨hkept, hindicators⟩

end WellTyped

end Formula

namespace Evaluation

variable {f : Formula} {s : Schema} {b : BoundFormula} {batch : Batch} {e : Evaluation}

/-- How the columns of a matrix are found by their names, which are distinct on a condition. -/
structure FoundByName (distinct : Prop) (m : Matrix) : Prop where

  nodup_iff : m.names.Nodup ↔ distinct

  first : ∀ name ∈ m.names, ∃ j cells, m.names[j]? = some name ∧
    (∀ i < j, m.names[i]? ≠ some name) ∧ m.column? name = some cells ∧ m.IsColumn j cells

  own : distinct → ∀ (j : Nat) (name : String), m.names[j]? = some name →
    ∃ cells, m.column? name = some cells ∧ m.IsColumn j cells

/-- The names of a design matrix are distinct exactly when the indicators and the intercept have
names of their own. Then each name finds its column, and otherwise the first that is called so. -/
theorem evaluate_foundByName (hb : f.bind s = .ok b) (he : b.evaluate batch = .ok e)
    (encoding : Encoding) :
    FoundByName (b.formula.NamesApart s encoding) (e.x encoding) := by
  have hwell := Formula.wellTyped_of_bind hb
  have hnodup : (e.x encoding).names.Nodup ↔ b.formula.NamesApart s encoding := by
    obtain ⟨rfl, -, -⟩ := BoundFormula.evaluate_eq_ok_iff.mp he
    rw [names_x, Formula.names_designColumns hb, hwell.nodup_designNames_iff]
  constructor
  · exact hnodup
  · intro name hname
    exact Matrix.exists_column_of_mem hname
  · intro hapart j name hj
    obtain ⟨i, cells, hi, -, hcolumn, hcells⟩ :=
      Matrix.exists_column_of_mem (List.mem_of_getElem? hj)
    obtain rfl : i = j := by
      obtain ⟨hlt, hname⟩ := List.getElem?_eq_some_iff.mp hi
      obtain ⟨hlt', hname'⟩ := List.getElem?_eq_some_iff.mp hj
      exact (hnodup.mpr hapart).getElem_inj_iff.mp (hname.trans hname'.symm)
    exact ⟨cells, hcolumn, hcells⟩

/-- The matrix of `~ 1 + Intercept + g + x::g`, where the column called like the intercept is a
category. -/
theorem evaluate_foundByName_category : ∃ (f : Formula) (s : Schema) (batch : Batch)
    (b : BoundFormula) (e : Evaluation),
      f.predictors = [.intercept, .variable "Intercept", .variable "g",
        .interaction [.variable "x", .variable "g"]] ∧
      f.bind s = .ok b ∧ b.evaluate batch = .ok e ∧
      (e.x .dummy).names = ["Intercept", "Intercept_q", "g_v", "x::g_u", "x::g_v"] ∧
      b.formula.NamesApart s .dummy ∧
      FoundByName (b.formula.NamesApart s .dummy) (e.x .dummy) := by
  refine ⟨⟨none, _, ?distinct⟩, ⟨[⟨"x", .f64⟩, ⟨"g", .categorical ["u", "v"]⟩,
    ⟨"Intercept", .categorical ["p", "q"]⟩], by decide, ?levels⟩,
    ⟨1, [("x", .float64 #[some 2]), ("g", .text .short #[some "v"]),
      ("Intercept", .text .short #[some "p"])], ?size⟩, ?b, ?e, rfl, ?bind, ?evaluate, ?names,
    (evaluate_foundByName ?bind ?evaluate .dummy).nodup_iff.mp ?nodup,
    evaluate_foundByName ?bind ?evaluate .dummy⟩
  case distinct => decide
  case levels => simp [DataType.LevelsOk, DataType.levels?]
  case size => decide
  case bind => rfl
  case evaluate => rfl
  case names => rfl
  case nodup => decide +kernel

/-- The row `g = v`, `g_v = 7` of `~ g + g_v`: the name of the second column finds the first. -/
theorem column?_of_shared_name : ∃ (f : Formula) (s : Schema) (batch : Batch) (b : BoundFormula)
    (e : Evaluation),
      f.predictors = [.variable "g", .variable "g_v"] ∧
      s.fields = [⟨"g", .categorical ["u", "v"]⟩, ⟨"g_v", .f64⟩] ∧
      batch.columns = [("g", .text .short #[some "v"]), ("g_v", .float64 #[some 7])] ∧
      f.bind s = .ok b ∧ b.evaluate batch = .ok e ∧
      (e.x .dummy).names = ["g_v", "g_v"] ∧ (e.x .dummy).get? 0 1 = some 7 ∧
      (e.x .dummy).column? "g_v" = some [1] := by
  refine ⟨⟨none, [.variable "g", .variable "g_v"], by decide⟩, ⟨_, by decide, ?levels⟩,
    ⟨1, _, ?size⟩, ?b, ?e, rfl, rfl, rfl, ?bind, ?evaluate, ?names, ?cell, ?column⟩
  case levels => simp [DataType.LevelsOk, DataType.levels?]
  case size => decide
  case bind => rfl
  case evaluate => rfl
  case names => rfl
  case cell => decide +kernel
  case column => decide +kernel

end Evaluation

end ModelFormula
