import ModelFormula.Proofs.DividedChains

/-! # Where a text is refused

A reader that comes upon a misplaced term has passed over a text that is open there. A text that is
refused for another reason is refused behind a beginning that some formula has.
-/

namespace ModelFormula.Formula

open Grammar

/-- A misplaced term stands where a response or an argument has to come. -/
def Refuses {α : Type} (read : List Char → Outcome α) (Opens : List Char → Prop) : Prop :=
  ∀ ⦃cs place⦄, read cs = .misplaced place → ∃ ds, cs = ds ++ place ∧ Opens ds

def OpensNested (cs : List Char) : Prop := cs = [] ∨ OpensTerm cs

section Terms

variable {read : List Char → Outcome Term} {symbol cs place : List Char}

theorem exists_opened_argument (hn : Refuses read OpensNested)
    (h : argument read cs = .misplaced place) : ∃ g₁ g₂ ds, IsGap g₁ ∧ IsGap g₂ ∧
      OpensNested ds ∧ cs = g₁ ++ '(' :: (g₂ ++ (ds ++ place)) := by
  obtain ⟨g₁, h₁, hcs⟩ := exists_gap cs
  unfold argument at h
  split at h
  · next inside hinside =>
    obtain ⟨g₂, h₂, hg₂⟩ := exists_gap inside
    split at h
    · split at h <;> cases h
    · cases h
    · next hread =>
      obtain rfl := Outcome.misplaced.inj h
      obtain ⟨ds, hds, ho⟩ := hn hread
      exact ⟨g₁, g₂, ds, h₁, h₂, ho, by rw [hcs, hinside, hg₂, hds]⟩
  · cases h

theorem refuses_factor (hn : Refuses read OpensNested) : Refuses (factor read) OpensFactor := by
  intro cs place h
  unfold factor at h
  split at h
  · cases h
  · next name after hname =>
    obtain ⟨ns, rfl, hw⟩ := writesName_of_name? hname
    split at h
    · cases h
    · cases h
    · next harg =>
      obtain rfl := Outcome.misplaced.inj h
      obtain ⟨g₁, g₂, ds, h₁, h₂, ho, rfl⟩ := exists_opened_argument hn harg
      rcases ho with rfl | ho
      · exact ⟨_, by simp, .here hw h₁ h₂⟩
      · exact ⟨_, by simp, .inside hw h₁ h₂ ho⟩

theorem refuses_chain (hs : Sound read WritesFactor) (hr : Refuses read OpensFactor) (fuel : Nat) :
    Refuses (chain symbol read fuel) (OpensLinks symbol) := by
  induction fuel with
  | zero =>
    intro cs place h
    cases h
  | succ fuel ih =>
    intro cs place h
    rw [chain] at h
    split at h
    · cases h
    · next after hafter =>
      obtain ⟨g₁, h₁, hcs⟩ := exists_gap cs
      obtain ⟨g₂, h₂, hg₂⟩ := exists_gap after
      rw [← List.append_eq_of_isPrefixOf?_eq_some hafter, hg₂] at hcs
      split at h
      · next term after' hterm =>
        obtain ⟨ts, hts, hw⟩ := hs hterm
        split at h
        · cases h
        · cases h
        · next hlinks =>
          obtain rfl := Outcome.misplaced.inj h
          obtain ⟨ds, rfl, ho⟩ := ih hlinks
          exact ⟨_, by simp [hcs, hts], .cons h₁ h₂ hw ho⟩
      · cases h
      · next hterm =>
        obtain rfl := Outcome.misplaced.inj h
        obtain ⟨ds, hds, ho⟩ := hr hterm
        exact ⟨_, by simp [hcs, hds], .last h₁ h₂ ho⟩

theorem exists_opened_operands {first : Term} {fs : List Char} (hs : Sound read WritesFactor)
    (hr : Refuses read OpensFactor) (hfirst : WritesFactor first fs)
    (h : operands read first cs = .misplaced place) :
    ∃ ds, cs = ds ++ place ∧ OpensTerm (fs ++ ds) := by
  have hlinks : ∀ link : Link, chain link.symbol read cs.length cs = .misplaced place →
      ∃ ds, cs = ds ++ place ∧ OpensTerm (fs ++ ds) := by
    intro link hchain
    obtain ⟨ds, hds, ho⟩ := refuses_chain hs hr _ hchain
    exact ⟨ds, hds, .links hfirst ho⟩
  unfold operands at h
  split at h
  · cases h
  · next hchain =>
    obtain rfl := Outcome.misplaced.inj h
    exact hlinks .interaction hchain
  · split at h
    · cases h
    · next hchain =>
      obtain rfl := Outcome.misplaced.inj h
      exact hlinks .crossing hchain
    · cases h

theorem refuses_termOf (hs : Sound read WritesFactor) (hr : Refuses read OpensFactor) :
    Refuses (termOf read) OpensTerm := by
  intro cs place h
  unfold termOf at h
  split at h
  · cases h
  · split at h
    · next first after hfirst =>
      obtain ⟨fs, rfl, hw⟩ := hs hfirst
      obtain ⟨ds, rfl, ho⟩ := exists_opened_operands hs hr hw h
      exact ⟨fs ++ ds, by simp, ho⟩
    · cases h
    · next hfirst =>
      obtain rfl := Outcome.misplaced.inj h
      obtain ⟨ds, hds, ho⟩ := hr hfirst
      exact ⟨ds, hds, .first ho⟩

theorem refuses_nested (depth : Nat) : Refuses (nested depth) OpensNested := by
  induction depth with
  | zero =>
    intro cs place h
    cases h
  | succ depth ih =>
    intro cs place h
    rw [nested] at h
    cases hread : termOf (factor (nested depth)) cs with
    | miss => simp [hread, Outcome.placed] at h
    | misplaced place' =>
      rw [hread, Outcome.placed] at h
      obtain rfl := Outcome.misplaced.inj h
      obtain ⟨ds, hds, ho⟩ :=
        refuses_termOf (sound_factor (sound_nested depth)) (refuses_factor ih) hread
      exact ⟨ds, hds, .inr ho⟩
    | ok term rest =>
      rw [hread, Outcome.placed] at h
      split at h
      · obtain rfl := Outcome.misplaced.inj h
        exact ⟨[], rfl, .inl rfl⟩
      · cases h

end Terms

/-! ## Items -/

section Items

theorem refuses_item (depth : Nat) (sign : Sign) : Refuses (item depth sign) OpensTerm := by
  intro cs place h
  unfold item at h
  split at h
  · cases h
  · cases h
  · split at h
    · cases h
    · cases h
    · next hterm =>
      obtain rfl := Outcome.misplaced.inj h
      exact refuses_termOf (sound_factor (sound_nested depth))
        (refuses_factor (refuses_nested depth)) hterm

theorem refuses_items (depth fuel : Nat) : Refuses (items depth fuel) OpensItems := by
  induction fuel with
  | zero =>
    intro cs place h
    cases h
  | succ fuel ih =>
    intro cs place h
    rw [items] at h
    split at h
    · cases h
    · next sign after hsign =>
      obtain ⟨g₁, h₁, hcs⟩ := exists_gap cs
      obtain ⟨g₂, h₂, hg₂⟩ := exists_gap after
      rw [eq_of_sign? hsign, hg₂] at hcs
      split at h
      · next edit after' hitem =>
        obtain ⟨es, hes, hw⟩ := sound_item depth sign hitem
        split at h
        · cases h
        · cases h
        · next hitems =>
          obtain rfl := Outcome.misplaced.inj h
          obtain ⟨ds, rfl, ho⟩ := ih hitems
          exact ⟨_, by simp [hcs, hes], .cons h₁ h₂ hw ho⟩
      · cases h
      · next hitem =>
        obtain rfl := Outcome.misplaced.inj h
        obtain ⟨ds, hds, ho⟩ := refuses_item depth sign hitem
        exact ⟨g₁ ++ signMark sign :: (g₂ ++ ds), by simp [hcs, hds], .last h₁ h₂ ho⟩

end Items

/-! ## Formulas -/

section Formulas

variable {cs rest left : List Char} {response : Option Term} {e : ParseError}

/-- The error stands behind a beginning that some formula has, or where a misplaced term begins. -/
def StopsBehind (cs : List Char) (e : ParseError) : Prop :=
  ∃ before after, cs = before ++ after ∧ e.position = byteSize before ∧
    (Completable before ∨ e.fault = .misplaced ∧ OpensFormula before)

theorem stopsBehind_refusal {before after : List Char} (fault : ParseFault)
    (h : Completable before ∨ fault = .misplaced ∧ OpensFormula before) :
    StopsBehind (before ++ after) (refusal (before ++ after) after fault) :=
  ⟨before, after, rfl, by rw [refusal, byteSize_append, Nat.add_sub_cancel], h⟩

theorem stopsBehind_stopped {before after : List Char} (fault : String → ParseFault)
    (h : Completable before) :
    StopsBehind (before ++ after) (stopped (before ++ after) after fault) :=
  stopsBehind_refusal _ (.inl h)

theorem completes_firstSign {sign : Sign} {ss : List Char} (h : WritesFirstSign sign ss) :
    Completes WritesRight ss := by
  cases sign with
  | plus => exact ⟨['0'], _, by simpa using h.right .removeZero .nil⟩
  | minus => exact ⟨['0'], _, by simpa using h.right .addZero .nil⟩

theorem stopsBehind_rightSide {g : List Char} (hg : IsGap g) (hl : WritesLeft response left)
    (h : rightSide (g ++ (left ++ '~' :: rest)) rest = .error e) :
    StopsBehind (g ++ (left ++ '~' :: rest)) e := by
  obtain ⟨g', hg', hrest⟩ := exists_gap rest
  have hright : ∀ {ds}, Completes WritesRight ds → Completable (g ++ (left ++ '~' :: (g' ++ ds))) :=
    completable_of_right hg hl hg'
  have hopen : ∀ {ds}, OpensRight ds → OpensFormula (g ++ (left ++ '~' :: (g' ++ ds))) :=
    .right hg hl hg'
  -- The text splits behind any part of what is read after `~`.
  have hsplit : ∀ ds after, skipGap rest = ds ++ after →
      g ++ (left ++ '~' :: rest) = g ++ (left ++ '~' :: (g' ++ ds)) ++ after := by
    intro ds after hds
    rw [hrest, hds]
    simp
  unfold rightSide at h
  split at h
  · next start hfirst =>
    obtain ⟨sign, ss, hsign, hss, -⟩ := exists_firstSign hfirst
    obtain rfl := Except.error.inj h
    rw [hsplit ss start hss]
    exact stopsBehind_stopped _ (hright (completes_firstSign hsign))
  · next start place hfirst =>
    obtain ⟨sign, ss, hsign, hss, hitem⟩ := exists_firstSign hfirst
    obtain ⟨ds, rfl, ho⟩ := refuses_item _ _ hitem
    obtain rfl := Except.error.inj h
    rw [hsplit (ss ++ ds) place (by rw [hss, List.append_assoc])]
    exact stopsBehind_refusal _ (.inr ⟨rfl, hopen (.first hsign ho)⟩)
  · next start edit after hfirst =>
    obtain ⟨sign, ss, hsign, hss, hitem⟩ := exists_firstSign hfirst
    obtain ⟨is, rfl, hw⟩ := sound_item _ _ hitem
    split at h
    · next place hitems =>
      obtain ⟨ds, rfl, ho⟩ := refuses_items _ _ hitems
      obtain rfl := Except.error.inj h
      rw [hsplit (ss ++ (is ++ ds)) place (by rw [hss]; simp)]
      exact stopsBehind_refusal _ (.inr ⟨rfl, hopen (.items hsign hw ho)⟩)
    · obtain rfl := Except.error.inj h
      rw [hsplit (ss ++ is) after (by rw [hss, List.append_assoc])]
      exact stopsBehind_stopped _ (hright ⟨[], _, by simpa using hsign.right hw .nil⟩)
    · next edits after' hitems =>
      obtain ⟨ds, rfl, hs⟩ := sound_items _ _ hitems
      obtain ⟨g₃, h₃, hafter⟩ := exists_gap after'
      split at h
      · cases h
      · obtain rfl := Except.error.inj h
        have hwhole : Completable (g ++ (left ++ '~' :: (g' ++ (ss ++ (is ++ (ds ++ g₃)))))) :=
          ⟨[], response, _, by simpa using WritesFormula.mk hg hl hg' (hsign.right hw hs) h₃⟩
        rw [hsplit (ss ++ (is ++ (ds ++ g₃))) (skipGap after') (by simp [hss, ← hafter])]
        exact stopsBehind_stopped _ hwhole

theorem stopsBehind_tilde {g : List Char} (hg : IsGap g) (hl : WritesLeft response left)
    (h : tilde (g ++ (left ++ rest)) rest = .error e) : StopsBehind (g ++ (left ++ rest)) e := by
  unfold tilde at h
  split at h
  · exact stopsBehind_rightSide hg hl h
  · obtain rfl := Except.error.inj h
    rw [← List.append_assoc]
    exact stopsBehind_stopped _ (completable_of_left hg hl)

theorem stopsBehind_script (h : script cs = .error e) : StopsBehind cs e := by
  obtain ⟨g, hg, hcs⟩ := exists_gap cs
  unfold script at h
  split at h
  · next term after hread =>
    obtain ⟨ts, hts, hw, hp⟩ := sound_nested _ hread
    obtain ⟨g', hg', hafter⟩ := exists_gap after
    have htext : cs = g ++ (ts ++ g' ++ skipGap after) := by
      rw [List.append_assoc, ← hafter, ← hts, ← hcs]
    have htilde := map_eq_error_iff.mp h
    rw [htext] at htilde ⊢
    exact stopsBehind_tilde hg (.some hw hp hg') htilde
  · have htilde := map_eq_error_iff.mp h
    have htext : cs = g ++ ([] ++ skipGap cs) := hcs
    generalize skipGap cs = rest at htext htilde
    rw [htext] at htilde ⊢
    exact stopsBehind_tilde hg .none htilde
  · next place hread =>
    obtain ⟨ds, hds, ho⟩ := refuses_nested _ hread
    obtain rfl := Except.error.inj h
    have hopen : OpensFormula (g ++ ds) := by
      rcases ho with rfl | ho
      · exact .here (by simpa using hg)
      · exact .response hg ho
    rw [hcs, hds, ← List.append_assoc]
    exact stopsBehind_refusal _ (.inr ⟨rfl, hopen⟩)

end Formulas

/-! ## The position of an error -/

theorem byteSize_eq (cs : List Char) : byteSize cs = (String.ofList cs).utf8ByteSize := by
  induction cs with
  | nil => rfl
  | cons c cs ih => simp [byteSize, ih, String.ofList_cons]

theorem completable_iff {text : String} :
    Completable text.toList ↔ ∃ rest f, parse (text ++ rest) = .ok f := by
  constructor
  · rintro ⟨rest, response, edits, hw⟩
    refine ⟨String.ofList rest, _, parse_eq_ok_iff.mpr ⟨response, edits, ?_, rfl⟩⟩
    rwa [String.toList_append, String.toList_ofList]
  · rintro ⟨rest, f, hf⟩
    obtain ⟨response, edits, hw, -⟩ := parse_eq_ok_iff.mp hf
    exact ⟨rest.toList, response, edits, by rwa [String.toList_append] at hw⟩

/-- An error has its place at a character of the text or at its end. Some formula begins with the
text before this place, unless a divided chain has begun there as a response or an argument; such an
error is about a misplaced term. -/
theorem parse_error_position {text : String} {e : ParseError} (h : parse text = .error e) :
    e.position ≤ text.utf8ByteSize ∧ (String.Pos.Raw.mk e.position).IsValid text ∧
      ∃ before after : String, text = before ++ after ∧ before.utf8ByteSize = e.position ∧
        ((∃ rest f, parse (before ++ rest) = .ok f) ↔ ¬ OpensDivided OpensFormula before.toList) ∧
        (OpensDivided OpensFormula before.toList → e.fault = .misplaced) := by
  obtain ⟨before, after, htext, hposition, hopen⟩ := stopsBehind_script (map_eq_error_iff.mp h)
  have hsplit : text = String.ofList before ++ String.ofList after := by
    rw [← String.ofList_append, ← htext, String.ofList_toList]
  rw [byteSize_eq] at hposition
  have hiff : Completable before ↔ ¬ OpensDivided OpensFormula before := by
    refine ⟨fun hc hdiv => not_completable_of_opensDivided hdiv hc, fun hdiv => ?_⟩
    rcases hopen with hc | ⟨-, ho⟩
    · exact hc
    · exact ho.completable.resolve_right hdiv
  refine ⟨?_, ?_, String.ofList before, String.ofList after, hsplit, hposition.symm, ?_, ?_⟩
  · rw [hposition, hsplit, String.utf8ByteSize_append]
    exact Nat.le_add_right _ _
  · exact String.Pos.Raw.isValid_iff_exists_append.mpr
      ⟨_, _, hsplit, by rw [hposition]; rfl⟩
  · rw [← completable_iff, String.toList_ofList]
    exact hiff
  · rw [String.toList_ofList]
    intro hdiv
    rcases hopen with hc | ⟨hfault, -⟩
    · exact absurd hdiv (hiff.mp hc)
    · exact hfault

/-- A column is linked by `&&` to no function of another name where no crossing may be. -/
theorem divided_of_name_ne {name name' : String} {cs ns g₁ g₂ g₃ g₄ : List Char}
    (hne : name ≠ name') (hw : WritesName name cs) (h₁ : IsGap g₁) (h₂ : IsGap g₂)
    (hn : WritesName name' ns) (h₃ : IsGap g₃) (h₄ : IsGap g₄) :
    Divided (cs ++ (g₁ ++ (['&', '&'] ++ (g₂ ++ (ns ++ (g₃ ++ '(' :: g₄)))))) := by
  have hcross : IsLink ['&', '&'] := Or.inr rfl
  refine ⟨_, cs, _, rfl, .column hw, .last h₁ h₂ (.here hn h₃ h₄), fun count rest h => ?_⟩
  generalize htext : g₁ ++ (['&', '&'] ++ (g₂ ++ (ns ++ (g₃ ++ '(' :: g₄)))) ++ rest = text at h
  cases count with
  | zero =>
    cases h
    simp at htext
  | succ count =>
    rw [List.replicate_succ] at h
    cases h with
    | @cons _ _ _ g₁' g₂' cs' ds' h₁' h₂' hf hl =>
      simp only [List.append_assoc] at htext
      have hlinks := congrArg skipGap htext
      rw [skipGap_append h₁, skipGap_append h₁', hcross.skipGap_append, hcross.skipGap_append,
        List.append_cancel_left_eq] at hlinks
      have hname := congrArg skipGap hlinks
      rw [skipGap_append h₂, skipGap_append h₂', skipGap_writesFactor hf,
        skipGap_of_head (exists_head_of_writesName hn)] at hname
      have hends : StopsAt factorMarks (ds' ++ []) := stopsAt_links hl hcross (StopsAt.nil _)
      rw [List.append_nil] at hends
      cases hf with
      | column hn' =>
        have hread := congrArg name? hname
        rw [List.cons_append, name?_of_writesName hn (nameEnds_gap h₃ (by decide)),
          name?_of_writesName hn' hends.nameEnds, Option.some.injEq, Prod.mk.injEq] at hread
        exact hne hread.1.symm

/-- Nothing that begins with `a && b(` is a formula, but `a && b(.) ~ c` is refused behind it. -/
theorem parse_error_position_divided :
    parse "a && b(.) ~ c" = .error ⟨7, .misplaced⟩ ∧ "a && b(".utf8ByteSize = 7 ∧
      "a && b(.) ~ c" = "a && b(" ++ ".) ~ c" ∧ ∀ rest f, parse ("a && b(" ++ rest) ≠ .ok f := by
  have hdivided : Divided "a && b(".toList :=
    divided_of_name_ne (by decide : "a" ≠ "b") (.plain (by decide)) isGap_space isGap_space
      (.plain (by decide)) isGap_nil isGap_nil
  refine ⟨rfl, rfl, rfl, fun rest f h => ?_⟩
  exact not_completable_of_opensDivided ⟨[], _, rfl, .here isGap_nil, hdivided⟩
    (completable_iff.mpr ⟨rest, f, h⟩)

/-- The place is counted in bytes: two for the letter between backticks. -/
theorem parse_error_position_accent :
    parse "~ `é` + log( .)" = .error ⟨14, .misplaced⟩ ∧
      ∃ before after : String, "~ `é` + log( .)" = before ++ after ∧ before.utf8ByteSize = 14 ∧
        ((∃ rest f, parse (before ++ rest) = .ok f) ↔
          ¬ OpensDivided OpensFormula before.toList) := by
  have herror : parse "~ `é` + log( .)" = .error ⟨14, .misplaced⟩ := rfl
  obtain ⟨-, -, before, after, htext, hsize, hiff, -⟩ := parse_error_position herror
  exact ⟨herror, before, after, htext, hsize, hiff⟩

end ModelFormula.Formula
