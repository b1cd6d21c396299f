import ModelFormula.Proofs.Binding
import ModelFormula.Proofs.RoundTrip

/-! # Formulas without wildcard

Resolving a formula leaves no wildcard behind, so what comes out is resolved to itself and bound to
the same plans. All functions of a formula that is bound are elementwise functions, which have plain
names, so what comes out is read again from its text.
-/

namespace ModelFormula

open Grammar

variable {s : Schema} {name : String} {t : Term}

/-! ## Names of functions -/

theorem isPlain_elementwise (h : name ∈ Elementwise.all.map Elementwise.name) : IsPlain name := by
  have hall : ∀ name ∈ Elementwise.all.map Elementwise.name, isPlainName name.toList = true := by
    decide
  exact hall name h

theorem Term.IsNumeric.isPlain_callee (h : t.IsNumeric s) : ∀ name ∈ t.callees, IsPlain name := by
  induction h with
  | column => exact nofun
  | function hname _ ih => exact List.forall_mem_cons.mpr ⟨isPlain_elementwise hname, ih⟩
  | interaction _ _ ih =>
    rw [callees_interaction, List.forall_mem_flatMap]
    exact ih

theorem Term.IsOperand.isPlain_callee (h : t.IsOperand s) : ∀ name ∈ t.callees, IsPlain name := by
  cases h with
  | column => exact nofun
  | number h => exact h.isPlain_callee

theorem Term.IsPlannable.isPlain_callee (h : t.IsPlannable s) :
    ∀ name ∈ t.callees, IsPlain name := by
  cases h with
  | column => exact nofun
  | function h => exact h.isPlain_callee
  | interaction _ h =>
    rw [callees_interaction, List.forall_mem_flatMap]
    exact fun t ht => (h t ht).isPlain_callee

namespace Formula

variable {f g : Formula} {b : BoundFormula} {text : String}

theorem WellTyped.isPlain_callees (h : f.WellTyped s) : ∀ name ∈ f.callees, IsPlain name := by
  intro name hname
  obtain ⟨t, ht, hname⟩ := List.mem_flatMap.mp hname
  by_cases hne : t = .intercept
  · subst hne
    cases hname
  · exact (h.plannable t ht hne).isPlain_callee name hname

/-! ## Resolving again -/

theorem dot_not_mem_resolveDot : .dot ∉ (f.resolveDot s).predictors := by
  intro h
  obtain ⟨t, -, hdot⟩ := List.mem_flatMap.mp h
  unfold resolved at hdot
  split at hdot
  · obtain ⟨_, -, -, he⟩ := mem_others.mp hdot
    cases he
  · next hne => exact hne (List.mem_singleton.mp hdot).symm

theorem flatMap_resolved_of_not_mem {terms : List Term} (h : .dot ∉ terms) :
    terms.flatMap (f.resolved s) = terms := by
  have hresolved : ∀ t ∈ terms, f.resolved s t = [t] := by
    rintro t ht
    refine if_neg ?_
    rintro rfl
    exact h ht
  rw [List.flatMap_congr hresolved, List.flatMap_singleton']

theorem resolveDot_of_not_mem (h : .dot ∉ f.predictors) : f.resolveDot s = f :=
  Formula.ext rfl (flatMap_resolved_of_not_mem h)

theorem expand_of_expand (h : f.expand s = .ok g) : g.expand s = .ok g := by
  obtain ⟨rfl, hfault⟩ := expand_eq_ok_iff.mp h
  have hsame : (f.resolveDot s).resolveDot s = f.resolveDot s :=
    resolveDot_of_not_mem dot_not_mem_resolveDot
  refine expand_eq_ok_iff.mpr ⟨hsame, ?_⟩
  rw [hsame]
  exact hfault

theorem bind_of_expand (h : f.expand s = .ok g) : g.bind s = f.bind s := by
  unfold bind
  rw [h, expand_of_expand h]

theorem regular_of_bind (hp : parse text = .ok f) (hb : f.bind s = .ok b)
    (hs : ∀ name ∈ s.names, IsName name) : b.formula.Regular IsPlain := by
  have hregular := (regular_of_parse hp).expand hs (bind_iff.mp hb).1
  exact hregular.restrict_iff.mpr (wellTyped_of_bind hb).isPlain_callees

end Formula

/-! ## The end of a text -/

/-- A text whose last character is no line break. -/
def EndsVisibly (cs : List Char) : Prop := ∃ ds c, cs = ds ++ [c] ∧ c ≠ '\n'

variable {callee : String → Prop} {f : Formula} {cs ds sep : List Char}

theorem EndsVisibly.prepend (h : EndsVisibly ds) (cs : List Char) : EndsVisibly (cs ++ ds) := by
  obtain ⟨es, c, rfl, hc⟩ := h
  exact ⟨cs ++ es, c, (List.append_assoc _ _ _).symm, hc⟩

theorem endsVisibly_singleton {c : Char} (h : c ≠ '\n') : EndsVisibly [c] := ⟨[], c, rfl, h⟩

theorem endsVisibly_intercalate {css : List (List Char)} (hne : css ≠ [])
    (h : ∀ cs ∈ css, EndsVisibly cs) : EndsVisibly (sep.intercalate css) := by
  induction css with
  | nil => exact absurd rfl hne
  | cons cs css ih =>
    obtain ⟨hcs, hcss⟩ := List.forall_mem_cons.mp h
    cases css with
    | nil => rwa [List.intercalate_singleton]
    | cons ds css =>
      rw [List.intercalate_cons_cons]
      exact (ih (List.cons_ne_nil _ _) hcss).prepend _

theorem endsVisibly_plain (h : IsPlain name) : EndsVisibly name.toList := by
  have hpart : ∀ c ∈ name.toList, isNamePart c = true := by
    unfold IsPlain at h
    cases hname : name.toList with
    | nil => exact nofun
    | cons c cs =>
      rw [hname, isPlainName, Bool.and_eq_true, List.all_eq_true] at h
      exact List.forall_mem_cons.mpr ⟨isNamePart_of_isNameStart h.1, h.2⟩
  rcases List.eq_nil_or_concat' name.toList with hname | ⟨ds, c, hname⟩
  · exact absurd (String.toList_eq_nil_iff.mp hname) (isName_of_plain h).1
  · refine ⟨ds, c, hname, ?_⟩
    rintro rfl
    exact absurd (hpart '\n' (by simp [hname])) (by decide)

theorem endsVisibly_quotedName (name : String) : EndsVisibly (quotedName name) := by
  unfold quotedName
  split
  · next hplain => exact endsVisibly_plain hplain
  · exact (endsVisibly_singleton (by decide)).prepend _

theorem Term.Expressible.endsVisibly (h : t.Expressible callee) : EndsVisibly t.chars := by
  induction h with
  | column => exact endsVisibly_quotedName _
  | @function name arg =>
    have hclose : EndsVisibly (name.toList ++ '(' :: arg.chars ++ [')']) :=
      (endsVisibly_singleton (by decide)).prepend _
    simpa [chars_function] using hclose
  | @interaction operands hl _ _ ih =>
    have hne : operands ≠ [] := List.ne_nil_of_length_pos (Nat.zero_lt_of_lt hl)
    rw [chars, charsWith, charsBetween_eq]
    exact endsVisibly_intercalate (by simpa using hne) (List.forall_mem_map.mpr ih)

theorem Term.Listable.endsVisibly (h : t.Listable callee) : EndsVisibly t.chars := by
  cases h with
  | dot => exact endsVisibly_singleton (by decide)
  | intercept => exact endsVisibly_singleton (by decide)
  | expressible h => exact h.endsVisibly

namespace Formula

theorem endsVisibly_predictorChars (h : t.Listable callee) (released : Option Term) :
    EndsVisibly (predictorChars released t) := by
  unfold predictorChars
  split
  · exact h.endsVisibly.prepend _
  · exact h.endsVisibly

theorem endsVisibly_rightChars (h : f.Regular callee) : EndsVisibly f.rightChars := by
  have hall : ∀ t ∈ f.predictors, EndsVisibly (predictorChars f.releasedTerm? t) :=
    fun t ht => endsVisibly_predictorChars (h.predictors t ht) _
  unfold rightChars
  split
  · exact endsVisibly_singleton (by decide)
  · next hne =>
    exact endsVisibly_intercalate (by simpa using hne) (List.forall_mem_map.mpr hall)

theorem endsVisibly_chars (h : f.Regular callee) : EndsVisibly f.chars := by
  unfold chars releaseChars
  have hright := (endsVisibly_rightChars h).prepend f.leftChars
  split
  · next term ht =>
    split
    · rwa [List.append_nil]
    · have hterm := (h.response term (responseTerm?_of_releasedTerm? ht)).endsVisibly
      exact (hterm.prepend _).prepend _
  · rwa [List.append_nil]

theorem isGap_break : IsGap ['\n'] := List.forall_mem_singleton.mpr (by decide)

theorem parse_append_gap {text gap : String} (h : parse text = .ok f) (hg : IsGap gap.toList) :
    parse (text ++ gap) = .ok f := by
  obtain ⟨response, edits, hw, rfl⟩ := parse_eq_ok_iff.mp h
  refine parse_eq_ok_iff.mpr ⟨response, edits, ?_, rfl⟩
  rw [String.toList_append]
  generalize text.toList = cs at hw
  cases hw with
  | @mk g₁ g₂ g₃ cs ds h₁ hl h₂ hr h₃ =>
    have hend : IsGap (g₃ ++ gap.toList) := List.forall_mem_append.mpr ⟨h₃, hg⟩
    simpa using WritesFormula.mk h₁ hl h₂ hr hend

end Formula

end ModelFormula
