import ModelFormula.Proofs.Callees
import ModelFormula.Proofs.Replay

/-! # Round trip of texts

The text of a formula that has been read is read again into the same formula exactly when all its
functions have plain names. A printed text calls no name between backticks, so a name that needs
them cannot come back as the name of a function.
-/

namespace ModelFormula

open Grammar Formula

/-- A piece of text after which the text goes on as before, unless a call follows. -/
def Quiet (cs : List Char) : Prop :=
  ∀ rest, (skipGap rest).head? ≠ some '(' → NoQuotedCall false rest →
    NoQuotedCall false (cs ++ rest)

/-- A piece of text that opens no call and has no backtick. -/
def Separates (sep : List Char) : Prop :=
  quoteMark ∉ sep ∧ ∀ rest, (skipGap (sep ++ rest)).head? ≠ some '('

variable {cs ds sep : List Char} {term : Term} {callee : String → Prop} {f : Formula}

theorem separates_of_head {c : Char} (hq : quoteMark ∉ sep) (h : (skipGap sep).head? = some c)
    (hc : c ≠ '(') : Separates sep := by
  refine ⟨hq, fun rest => ?_⟩
  rw [skipGap] at h ⊢
  rw [List.dropWhile_append]
  cases hs : sep.dropWhile isGap with
  | nil => simp [hs] at h
  | cons d ds =>
    obtain rfl : d = c := by simpa [hs] using h
    simpa using hc

theorem separates_plus : Separates " + ".toList :=
  separates_of_head (c := '+') (by decide) (by decide) (by decide)

theorem separates_minus : Separates " - ".toList :=
  separates_of_head (c := '-') (by decide) (by decide) (by decide)

theorem separates_tilde : Separates " ~ ".toList :=
  separates_of_head (c := '~') (by decide) (by decide) (by decide)

theorem separates_link : Separates [':', ':'] :=
  separates_of_head (c := ':') (by decide) (by decide) (by decide)

theorem separates_close : Separates [')'] :=
  separates_of_head (c := ')') (by decide) (by decide) (by decide)

theorem quiet_of_not_mem (h : quoteMark ∉ cs) : Quiet cs :=
  fun _ _ hrest => (noQuotedCall_append h).mpr hrest

theorem Quiet.prepend (h : quoteMark ∉ cs) (hd : Quiet ds) : Quiet (cs ++ ds) := by
  intro rest hopen hrest
  rw [List.append_assoc]
  exact (noQuotedCall_append h).mpr (hd rest hopen hrest)

theorem Quiet.append (hc : Quiet cs) (hs : Separates sep) (hd : Quiet ds) :
    Quiet (cs ++ (sep ++ ds)) := by
  intro rest hopen hrest
  rw [List.append_assoc, List.append_assoc]
  exact hc _ (hs.2 _) ((noQuotedCall_append hs.1).mpr (hd rest hopen hrest))

theorem Quiet.flatMap {terms : List Term} {chars : Term → List Char} (hc : Quiet cs)
    (hs : Separates sep) (h : ∀ t ∈ terms, Quiet (chars t)) :
    Quiet (cs ++ terms.flatMap fun t => sep ++ chars t) := by
  induction terms generalizing cs with
  | nil => simpa using hc
  | cons term terms ih =>
    obtain ⟨hterm, hterms⟩ := List.forall_mem_cons.mp h
    rw [List.flatMap_cons, ← List.append_assoc]
    exact ih (hc.append hs hterm) hterms

theorem quiet_quotedName {name : String} (h : IsName name) : Quiet (quotedName name) := by
  unfold quotedName
  split
  · exact quiet_of_not_mem h.2
  · intro rest hopen hrest
    simp only [List.cons_append, List.append_assoc, List.nil_append]
    exact (noQuotedCall_quoted h.2).mpr ⟨hopen, hrest⟩

theorem Term.Expressible.quiet (h : term.Expressible IsName) : Quiet term.chars := by
  induction h with
  | column hn => exact quiet_quotedName hn
  | @function name arg hn _ ih =>
    have harg : Quiet (arg.chars ++ ([')'] ++ [])) :=
      ih.append separates_close (quiet_of_not_mem (by decide))
    have hname : quoteMark ∉ name.toList ++ ['('] := by simpa using ⟨hn.2, by decide⟩
    simpa [chars_function] using harg.prepend hname
  | @interaction operands hl _ _ ih =>
    cases operands with
    | nil => simp at hl
    | cons first others =>
      obtain ⟨hfirst, hothers⟩ := List.forall_mem_cons.mp ih
      rw [chars_interaction]
      exact hfirst.flatMap separates_link hothers

theorem Term.Listable.quiet (h : term.Listable IsName) : Quiet term.chars := by
  cases h with
  | dot => exact quiet_of_not_mem (by decide)
  | intercept => exact quiet_of_not_mem (by decide)
  | expressible h => exact h.quiet

namespace Formula

theorem quiet_predictorChars (h : term.Listable IsName) (released : Option Term) :
    Quiet (predictorChars released term) := by
  unfold predictorChars
  split
  · simp only [List.append_assoc]
    exact h.quiet.append separates_minus (h.quiet.append separates_plus h.quiet)
  · exact h.quiet

theorem quiet_rightChars (h : f.Regular IsName) : Quiet f.rightChars := by
  have hall : ∀ t ∈ f.predictors, Quiet (predictorChars f.releasedTerm? t) :=
    fun t ht => quiet_predictorChars (h.predictors t ht) _
  unfold rightChars
  cases hp : f.predictors with
  | nil =>
    rw [if_pos rfl]
    exact quiet_of_not_mem (by decide)
  | cons first others =>
    rw [hp] at hall
    obtain ⟨hfirst, hothers⟩ := List.forall_mem_cons.mp hall
    rw [if_neg (List.cons_ne_nil _ _), List.map_cons, intercalate_cons, List.flatMap_map]
    exact hfirst.flatMap separates_plus hothers

theorem quiet_releaseChars (h : f.Regular IsName) (hc : Quiet cs) :
    Quiet (cs ++ f.releaseChars) := by
  unfold releaseChars
  cases ht : f.releasedTerm? with
  | none => simpa using hc
  | some term =>
    have hterm := (h.response term (responseTerm?_of_releasedTerm? ht)).quiet
    by_cases hmem : term ∈ f.predictors
    · simpa [hmem] using hc
    · simp only [if_neg hmem, List.append_assoc]
      exact hc.append separates_plus (hterm.append separates_minus hterm)

/-- The text of a regular formula calls no name between backticks. -/
theorem noQuotedCall_chars (h : f.Regular IsName) : NoQuotedCall false f.chars := by
  suffices hq : Quiet f.chars by simpa using hq [] (by decide) trivial
  have hright := quiet_releaseChars h (quiet_rightChars h)
  unfold chars leftChars
  rw [List.append_assoc]
  cases hr : f.responseTerm? with
  | none => exact hright.prepend (by decide)
  | some term =>
    simp only [List.append_assoc]
    exact (h.response term hr).quiet.append separates_tilde hright

theorem regular_of_parse_render (h : f.Regular IsName) (hp : parse f.render = .ok f) :
    f.Regular IsPlain := by
  obtain ⟨response, edits, hw, hf⟩ := parse_eq_ok_iff.mp hp
  rw [toList_render] at hw
  obtain ⟨hresponse, hedits⟩ := plain_of_writesFormula hw (noQuotedCall_chars h)
  rw [← hf]
  exact (Regular.ofResponse hresponse).run hedits

/-- A formula that has been read comes back from its own text exactly when each of its functions
has a plain name. -/
theorem parse_render_iff {text : String} (h : parse text = .ok f) :
    parse f.render = .ok f ↔ ∀ name ∈ f.callees, IsPlain name := by
  have hregular := regular_of_parse h
  rw [← hregular.restrict_iff]
  exact ⟨regular_of_parse_render hregular, parse_render_of_regular⟩

/-- With plain function names everything comes back: the response and its release, the wildcard
and a quoted column. -/
theorem parse_render_of_plain_call : ∃ f, parse "y~log(`a b`)+ . +y-y+y" = .ok f ∧
    (∀ name ∈ f.callees, IsPlain name) ∧ parse f.render = .ok f := by
  have hparse : parse "y~log(`a b`)+ . +y-y+y" = .ok
      ⟨some ⟨.variable "y", true⟩, [.function "log" (.variable "a b"), .dot, .variable "y"],
        by decide⟩ := rfl
  exact ⟨_, hparse, by decide, (parse_render_iff hparse).mpr (by decide)⟩

/-- A function may be called by a name in backticks, but the text of the formula then is none. -/
theorem parse_render_ne_of_quoted_call :
    ∃ f, parse "~ `a b`(x)" = .ok f ∧ parse f.render ≠ .ok f := by
  refine ⟨⟨none, [.function "a b" (.variable "x")], by decide⟩, rfl, fun h => ?_⟩
  cases h

end Formula

end ModelFormula
