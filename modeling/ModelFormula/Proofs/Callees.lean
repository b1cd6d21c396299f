import ModelFormula.Proofs.Constructors
import ModelFormula.Proofs.Regular

/-! # The names of functions

The functions that a term calls. A function name is printed as it is, so a name that needs
backticks is lost in print; whether a text calls a name between backticks can be seen from its
backticks and parentheses alone.
-/

namespace ModelFormula

namespace Term

mutual

/-- The names of the functions in a term. -/
def callees : Term → List String
  | .function name arg => name :: callees arg
  | .interaction operands | .crossing operands => calleesAll operands
  | .variable _ | .dot | .intercept => []

def calleesAll : List Term → List String
  | [] => []
  | term :: terms => callees term ++ calleesAll terms

end

variable {term : Term} {operands : List Term} {callee : String → Prop} {name : String}

theorem calleesAll_eq (terms : List Term) : calleesAll terms = terms.flatMap callees := by
  induction terms with
  | nil => rfl
  | cons term terms ih => rw [calleesAll, ih, List.flatMap_cons]

theorem callees_interaction (operands : List Term) :
    (Term.interaction operands).callees = operands.flatMap callees := by
  rw [callees, calleesAll_eq]

theorem callees_interactionOf (operands : List Term) :
    (interactionOf operands).callees = operands.flatMap callees :=
  collect_interactionOf callees_interaction operands

theorem mem_callees_crossingOf :
    name ∈ (crossingOf operands).callees ↔ name ∈ operands.flatMap callees :=
  mem_collect_crossingOf calleesAll_eq

theorem Expressible.restrict {callee' : String → Prop} (h : term.Expressible callee)
    (hc : ∀ name ∈ term.callees, callee' name) : term.Expressible callee' := by
  induction h with
  | column hn => exact .column hn
  | function _ _ ih =>
    obtain ⟨hname, harg⟩ := List.forall_mem_cons.mp hc
    exact .function hname (ih harg)
  | interaction hl hf _ ih =>
    rw [callees_interaction] at hc
    refine .interaction hl hf fun t ht => ih t ht fun name hname => ?_
    exact hc name (List.mem_flatMap.mpr ⟨t, ht, hname⟩)

theorem Expressible.callee_of_mem (h : term.Expressible callee) (hn : name ∈ term.callees) :
    callee name := by
  induction h with
  | column => cases hn
  | function hname _ ih =>
    rcases List.mem_cons.mp hn with rfl | hn
    · exact hname
    · exact ih hn
  | interaction _ _ _ ih =>
    rw [callees_interaction] at hn
    obtain ⟨t, ht, hn⟩ := List.mem_flatMap.mp hn
    exact ih t ht hn

theorem Listable.restrict {callee' : String → Prop} (h : term.Listable callee)
    (hc : ∀ name ∈ term.callees, callee' name) : term.Listable callee' := by
  cases h with
  | dot => exact .dot
  | intercept => exact .intercept
  | expressible h => exact .expressible (h.restrict hc)

theorem Listable.callee_of_mem (h : term.Listable callee) (hn : name ∈ term.callees) :
    callee name := by
  cases h with
  | dot => cases hn
  | intercept => cases hn
  | expressible h => exact h.callee_of_mem hn

theorem Editable.restrict {callee' : String → Prop} (h : term.Editable callee)
    (hc : ∀ name ∈ term.callees, callee' name) : term.Editable callee' := by
  cases h with
  | listable h => exact .listable (h.restrict hc)
  | crossing hne h =>
    refine .crossing hne fun t ht => (h t ht).restrict fun name hname => ?_
    exact hc name (mem_callees_crossingOf.mpr (List.mem_flatMap.mpr ⟨t, ht, hname⟩))

end Term

def Edit.callees : Edit → List String
  | .add term | .remove term => term.callees

theorem Edit.Regular.restrict {edit : Edit} {callee callee' : String → Prop}
    (h : edit.Regular callee) (hc : ∀ name ∈ edit.callees, callee' name) :
    edit.Regular callee' := by
  cases edit <;> exact Term.Editable.restrict h hc

/-! ## Calls between backticks -/

namespace Grammar

open Formula

/-- Whether no name between backticks is followed by an opening parenthesis; the flag says that
the text begins between backticks. -/
def NoQuotedCall : Bool → List Char → Prop
  | _, [] => True
  | false, c :: cs => NoQuotedCall (decide (c = quoteMark)) cs
  | true, c :: cs =>
    if c = quoteMark then (skipGap cs).head? ≠ some '(' ∧ NoQuotedCall false cs
    else NoQuotedCall true cs

variable {cs ds ns rest g symbol : List Char} {name : String} {term : Term} {terms : List Term}
  {edit : Edit} {edits : List Edit}

theorem noQuotedCall_append (h : quoteMark ∉ cs) :
    NoQuotedCall false (cs ++ ds) ↔ NoQuotedCall false ds := by
  induction cs with
  | nil => rfl
  | cons c cs ih =>
    obtain ⟨hc, hcs⟩ := not_or.mp fun hm => h (List.mem_cons.mpr hm)
    rw [List.cons_append, NoQuotedCall, decide_eq_false (Ne.symm hc), ih hcs]

theorem noQuotedCall_inside (h : quoteMark ∉ ns) : NoQuotedCall true (ns ++ quoteMark :: ds) ↔
    (skipGap ds).head? ≠ some '(' ∧ NoQuotedCall false ds := by
  induction ns with
  | nil => rw [List.nil_append, NoQuotedCall, if_pos rfl]
  | cons c ns ih =>
    obtain ⟨hc, hns⟩ := not_or.mp fun hm => h (List.mem_cons.mpr hm)
    rw [List.cons_append, NoQuotedCall, if_neg (Ne.symm hc), ih hns]

theorem noQuotedCall_quoted (h : quoteMark ∉ ns) :
    NoQuotedCall false (quoteMark :: (ns ++ quoteMark :: ds)) ↔
      (skipGap ds).head? ≠ some '(' ∧ NoQuotedCall false ds := by
  rw [NoQuotedCall, decide_eq_true rfl, noQuotedCall_inside h]

theorem quoteMark_not_mem_gap (hg : IsGap g) : quoteMark ∉ g :=
  fun h => absurd (hg _ h) (by decide)

theorem quoteMark_not_mem_plain (h : IsPlain name) : quoteMark ∉ name.toList :=
  (isName_of_plain h).2

theorem noQuotedCall_of_column (hn : WritesName name ns) (h : NoQuotedCall false (ns ++ rest)) :
    NoQuotedCall false rest := by
  cases hn with
  | plain hp => exact (noQuotedCall_append (quoteMark_not_mem_plain hp)).mp h
  | quoted hq =>
    rw [List.cons_append, List.append_assoc] at h
    exact ((noQuotedCall_quoted hq.2).mp h).2

theorem isPlain_of_call (hn : WritesName name ns) (hg : IsGap g)
    (h : NoQuotedCall false (ns ++ (g ++ '(' :: rest))) :
    IsPlain name ∧ NoQuotedCall false rest := by
  cases hn with
  | plain hp =>
    rw [noQuotedCall_append (quoteMark_not_mem_plain hp),
      noQuotedCall_append (quoteMark_not_mem_gap hg)] at h
    exact ⟨hp, h⟩
  | quoted hq =>
    rw [List.cons_append, List.append_assoc, List.singleton_append] at h
    have hopen := ((noQuotedCall_quoted hq.2).mp h).1
    rw [skipGap_append hg, skipGap_cons (by decide)] at hopen
    exact absurd rfl hopen

mutual

theorem plain_of_writesFactor : ∀ {term : Term} {cs rest : List Char}, WritesFactor term cs →
    NoQuotedCall false (cs ++ rest) →
    (∀ name ∈ term.callees, IsPlain name) ∧ NoQuotedCall false rest
  | _, _, _, .column hn, h => ⟨fun _ hm => (nomatch hm), noQuotedCall_of_column hn h⟩
  | _, _, rest, .call hn h₁ h₂ ha _ h₃, h => by
    simp only [List.append_assoc, List.cons_append] at h
    obtain ⟨hplain, h⟩ := isPlain_of_call hn h₁ h
    rw [noQuotedCall_append (quoteMark_not_mem_gap h₂)] at h
    obtain ⟨harg, h⟩ := plain_of_writesTerm ha h
    rw [noQuotedCall_append (quoteMark_not_mem_gap h₃)] at h
    exact ⟨List.forall_mem_cons.mpr ⟨hplain, harg⟩, h⟩

theorem plain_of_writesLinks : ∀ {symbol : List Char} {terms : List Term} {cs rest : List Char},
    WritesLinks symbol terms cs → quoteMark ∉ symbol → NoQuotedCall false (cs ++ rest) →
    (∀ name ∈ terms.flatMap Term.callees, IsPlain name) ∧ NoQuotedCall false rest
  | _, _, _, _, .nil, _, h => ⟨fun _ hm => (nomatch hm), h⟩
  | _, _, _, _, .cons h₁ h₂ hf hl, hs, h => by
    simp only [List.append_assoc] at h
    rw [noQuotedCall_append (quoteMark_not_mem_gap h₁), noQuotedCall_append hs,
      noQuotedCall_append (quoteMark_not_mem_gap h₂)] at h
    obtain ⟨hfirst, h⟩ := plain_of_writesFactor hf h
    obtain ⟨hrest, h⟩ := plain_of_writesLinks hl hs h
    rw [List.flatMap_cons]
    exact ⟨List.forall_mem_append.mpr ⟨hfirst, hrest⟩, h⟩

theorem plain_of_writesTerm : ∀ {term : Term} {cs rest : List Char}, WritesTerm term cs →
    NoQuotedCall false (cs ++ rest) →
    (∀ name ∈ term.callees, IsPlain name) ∧ NoQuotedCall false rest
  | _, _, _, .dot, h => ⟨fun _ hm => (nomatch hm), h⟩
  | _, _, _, .interaction hf hl, h => by
    rw [List.append_assoc] at h
    obtain ⟨hfirst, h⟩ := plain_of_writesFactor hf h
    obtain ⟨hothers, h⟩ := plain_of_writesLinks hl (by decide) h
    rw [Term.callees_interactionOf, List.flatMap_cons]
    exact ⟨List.forall_mem_append.mpr ⟨hfirst, hothers⟩, h⟩
  | _, _, _, .crossing hf hl, h => by
    rw [List.append_assoc] at h
    obtain ⟨hfirst, h⟩ := plain_of_writesFactor hf h
    obtain ⟨hothers, h⟩ := plain_of_writesLinks hl (by decide) h
    refine ⟨fun name hname => ?_, h⟩
    rw [Term.mem_callees_crossingOf, List.flatMap_cons] at hname
    exact List.forall_mem_append.mpr ⟨hfirst, hothers⟩ name hname

end

theorem plain_of_writesItem {sign : Sign} (hi : WritesItem sign edit cs)
    (h : NoQuotedCall false (cs ++ rest)) :
    edit.Regular IsPlain ∧ NoQuotedCall false rest := by
  have hregular := regular_of_writesItem hi
  suffices hp : (∀ name ∈ edit.callees, IsPlain name) ∧ NoQuotedCall false rest from
    ⟨hregular.restrict hp.1, hp.2⟩
  cases hi with
  | add ht => exact plain_of_writesTerm ht h
  | remove ht => exact plain_of_writesTerm ht h
  | addOne => exact ⟨fun _ hm => (nomatch hm), h⟩
  | removeOne => exact ⟨fun _ hm => (nomatch hm), h⟩
  | removeZero => exact ⟨fun _ hm => (nomatch hm), h⟩
  | addZero => exact ⟨fun _ hm => (nomatch hm), h⟩

theorem quoteMark_ne_signMark (sign : Sign) : quoteMark ∉ [signMark sign] := by
  cases sign <;> decide

theorem plain_of_writesItems (hs : WritesItems edits cs) (h : NoQuotedCall false (cs ++ rest)) :
    ∀ e ∈ edits, e.Regular IsPlain := by
  induction hs with
  | nil => exact fun _ he => nomatch he
  | @cons sign edit edits g₁ g₂ cs ds h₁ h₂ hi _ ih =>
    simp only [List.append_assoc, List.cons_append] at h
    rw [noQuotedCall_append (quoteMark_not_mem_gap h₁), ← List.singleton_append,
      noQuotedCall_append (quoteMark_ne_signMark sign),
      noQuotedCall_append (quoteMark_not_mem_gap h₂)] at h
    obtain ⟨hfirst, h⟩ := plain_of_writesItem hi h
    exact List.forall_mem_cons.mpr ⟨hfirst, ih h⟩

theorem plain_of_writesRight (hr : WritesRight edits cs) (h : NoQuotedCall false (cs ++ rest)) :
    ∀ e ∈ edits, e.Regular IsPlain := by
  cases hr with
  | unsigned hi hs =>
    rw [List.append_assoc] at h
    obtain ⟨hfirst, h⟩ := plain_of_writesItem hi h
    exact List.forall_mem_cons.mpr ⟨hfirst, plain_of_writesItems hs h⟩
  | @signed sign _ _ _ _ _ hg hi hs =>
    simp only [List.append_assoc, List.cons_append] at h
    rw [← List.singleton_append, noQuotedCall_append (quoteMark_ne_signMark sign),
      noQuotedCall_append (quoteMark_not_mem_gap hg)] at h
    obtain ⟨hfirst, h⟩ := plain_of_writesItem hi h
    exact List.forall_mem_cons.mpr ⟨hfirst, plain_of_writesItems hs h⟩

theorem plain_of_writesLeft {response : Option Term} (hl : WritesLeft response cs)
    (h : NoQuotedCall false (cs ++ rest)) :
    (∀ t ∈ response, t.Expressible IsPlain) ∧ NoQuotedCall false rest := by
  cases hl with
  | none => exact ⟨fun _ ht => (nomatch ht), h⟩
  | @some term _ _ ht hp hg =>
    rw [List.append_assoc] at h
    obtain ⟨hplain, h⟩ := plain_of_writesTerm ht h
    refine ⟨?_, (noQuotedCall_append (quoteMark_not_mem_gap hg)).mp h⟩
    rintro u ⟨⟩
    exact ((editable_of_writesTerm ht).2 hp).restrict hplain

/-- A text without a called name between backticks writes a formula with plain function names. -/
theorem plain_of_writesFormula {response : Option Term} (hw : WritesFormula response edits cs)
    (h : NoQuotedCall false cs) :
    (∀ t ∈ response, t.Expressible IsPlain) ∧ ∀ e ∈ edits, e.Regular IsPlain := by
  cases hw with
  | mk h₁ hl h₂ hr _ =>
    rw [noQuotedCall_append (quoteMark_not_mem_gap h₁)] at h
    obtain ⟨hresponse, h⟩ := plain_of_writesLeft hl h
    rw [← List.singleton_append, noQuotedCall_append (by decide),
      noQuotedCall_append (quoteMark_not_mem_gap h₂)] at h
    exact ⟨hresponse, plain_of_writesRight hr h⟩

end Grammar

namespace Formula

def callees (f : Formula) : List String := f.terms.flatMap Term.callees

/-- A regular formula stays so for fewer names exactly if it calls only these. -/
theorem Regular.restrict_iff {f : Formula} {callee callee' : String → Prop}
    (h : f.Regular callee) : f.Regular callee' ↔ ∀ name ∈ f.callees, callee' name := by
  have hmem : ∀ {name}, name ∈ f.callees ↔ (∃ t ∈ f.responseTerm?, name ∈ t.callees) ∨
      ∃ t ∈ f.predictors, name ∈ t.callees := by
    intro name
    simp [callees, terms]
  constructor
  · intro h' name hname
    rcases hmem.mp hname with ⟨t, ht, hname⟩ | ⟨t, ht, hname⟩
    · exact (h'.response t ht).callee_of_mem hname
    · exact (h'.predictors t ht).callee_of_mem hname
  · intro hc
    refine ⟨fun t ht => (h.response t ht).restrict fun name hname => ?_,
      fun t ht => (h.predictors t ht).restrict fun name hname => ?_⟩
    · exact hc name (hmem.mpr (Or.inl ⟨t, ht, hname⟩))
    · exact hc name (hmem.mpr (Or.inr ⟨t, ht, hname⟩))

end Formula

end ModelFormula
