import ModelFormula.Proofs.Derivation

/-! # Unfinished texts

The beginnings of formulas that end where a response or an argument has to come. Such a beginning
can be completed to a formula, unless it leaves a chain by `&&` open in such a place and the chain
cannot come to repeat its first factor.
-/

namespace ModelFormula.Grammar

open Formula (Sign WritesNested)

mutual

/-- The text of a factor up to where an argument has to come in its parentheses. -/
inductive OpensFactor : List Char → Prop where

  | here {name : String} {cs g₁ g₂ : List Char} : WritesName name cs → IsGap g₁ → IsGap g₂ →
      OpensFactor (cs ++ (g₁ ++ '(' :: g₂))

  | inside {name : String} {cs g₁ g₂ ds : List Char} : WritesName name cs → IsGap g₁ → IsGap g₂ →
      OpensTerm ds → OpensFactor (cs ++ (g₁ ++ '(' :: (g₂ ++ ds)))

inductive OpensLinks : List Char → List Char → Prop where

  | last {symbol g₁ g₂ cs : List Char} : IsGap g₁ → IsGap g₂ → OpensFactor cs →
      OpensLinks symbol (g₁ ++ (symbol ++ (g₂ ++ cs)))

  | cons {symbol : List Char} {term : Term} {g₁ g₂ cs ds : List Char} : IsGap g₁ → IsGap g₂ →
      WritesFactor term cs → OpensLinks symbol ds →
      OpensLinks symbol (g₁ ++ (symbol ++ (g₂ ++ (cs ++ ds))))

inductive OpensTerm : List Char → Prop where

  | first {cs : List Char} : OpensFactor cs → OpensTerm cs

  | links {link : Link} {first : Term} {cs ds : List Char} : WritesFactor first cs →
      OpensLinks link.symbol ds → OpensTerm (cs ++ ds)

end

inductive OpensItems : List Char → Prop where

  | last {sign : Sign} {g₁ g₂ cs : List Char} : IsGap g₁ → IsGap g₂ → OpensTerm cs →
      OpensItems (g₁ ++ signMark sign :: (g₂ ++ cs))

  | cons {sign : Sign} {edit : Edit} {g₁ g₂ cs ds : List Char} : IsGap g₁ → IsGap g₂ →
      WritesItem sign edit cs → OpensItems ds →
      OpensItems (g₁ ++ signMark sign :: (g₂ ++ (cs ++ ds)))

inductive OpensRight : List Char → Prop where

  | first {sign : Sign} {ss cs : List Char} : WritesFirstSign sign ss → OpensTerm cs →
      OpensRight (ss ++ cs)

  | items {sign : Sign} {edit : Edit} {ss cs ds : List Char} : WritesFirstSign sign ss →
      WritesItem sign edit cs → OpensItems ds → OpensRight (ss ++ (cs ++ ds))

/-- The text of a formula up to where a response or an argument has to come. -/
inductive OpensFormula : List Char → Prop where

  | here {g : List Char} : IsGap g → OpensFormula g

  | response {g cs : List Char} : IsGap g → OpensTerm cs → OpensFormula (g ++ cs)

  | right {response : Option Term} {g₁ g₂ cs ds : List Char} : IsGap g₁ → WritesLeft response cs →
      IsGap g₂ → OpensRight ds → OpensFormula (g₁ ++ (cs ++ '~' :: (g₂ ++ ds)))

/-- The text of an unfinished chain by `&&` that cannot come to repeat its first factor. -/
def Divided (text : List Char) : Prop :=
  ∃ first cs ds, text = cs ++ ds ∧ WritesFactor first cs ∧ OpensLinks ['&', '&'] ds ∧
    ∀ count rest, ¬ WritesLinks ['&', '&'] (List.replicate count first) (ds ++ rest)

/-- Where a response or an argument has to come in an open text, a divided chain begins and is not
finished. -/
def OpensDivided (Opens : List Char → Prop) (text : List Char) : Prop :=
  ∃ outer inner, text = outer ++ inner ∧ Opens outer ∧ Divided inner

/-- Some text that begins like this is written. -/
def Completes {α : Type} (Writes : α → List Char → Prop) (text : List Char) : Prop :=
  ∃ rest value, Writes value (text ++ rest)

def Completable (text : List Char) : Prop :=
  ∃ rest response edits, WritesFormula response edits (text ++ rest)

/-! ## Completing terms -/

theorem OpensDivided.map {Opens Opens' : List Char → Prop} {text : List Char}
    (h : OpensDivided Opens text) (context : List Char → List Char)
    (hc : ∀ outer inner, context (outer ++ inner) = context outer ++ inner)
    (ho : ∀ outer, Opens outer → Opens' (context outer)) : OpensDivided Opens' (context text) := by
  obtain ⟨outer, inner, rfl, houter, hinner⟩ := h
  exact ⟨context outer, inner, hc outer inner, ho outer houter, hinner⟩

section Terms

variable {cs ds g₁ g₂ : List Char} {term first : Term} {others : List Term} {name : String}

theorem WritesFactor.nested (h : WritesFactor term cs) : WritesNested term cs := by
  have hwrites : WritesTerm (Term.interactionOf [term]) (cs ++ []) := .interaction h .nil
  rw [Formula.interactionOf_singleton h, List.append_nil] at hwrites
  exact ⟨hwrites, by cases h <;> rfl⟩

theorem writesNested_of_interaction (h : WritesFactor first cs)
    (hl : WritesLinks [':', ':'] others ds) :
    WritesNested (Term.interactionOf (first :: others)) (cs ++ ds) := by
  have hfirst : first.isFactor = true := by cases h <;> rfl
  exact ⟨.interaction h hl, isPlaceholder_interactionOf
    (List.forall_mem_cons.mpr ⟨hfirst, isFactor_of_writesLinks hl⟩)⟩

theorem writesNested_of_replicate {count : Nat} (h : WritesFactor first cs)
    (hl : WritesLinks ['&', '&'] (List.replicate count first) ds) :
    WritesNested first (cs ++ ds) := by
  have hdups : (first :: List.replicate count first).eraseDups = [first] := by
    simp [List.eraseDups_cons]
  have hsingle : Term.crossingOf (first :: List.replicate count first) = first := by
    rw [Term.crossingOf, hdups]
  have hwrites : WritesTerm (Term.crossingOf (first :: List.replicate count first)) (cs ++ ds) :=
    .crossing h hl
  rw [hsingle] at hwrites
  exact ⟨hwrites, h.nested.2⟩

theorem completes_call {body : List Char} (hn : WritesName name cs) (h₁ : IsGap g₁)
    (h₂ : IsGap g₂) (h : Completes WritesNested body) :
    Completes WritesFactor (cs ++ (g₁ ++ '(' :: (g₂ ++ body))) := by
  obtain ⟨rest, arg, harg, hp⟩ := h
  refine ⟨rest ++ [')'], .function name arg, ?_⟩
  have hcall : WritesFactor (.function name arg)
      (cs ++ (g₁ ++ '(' :: (g₂ ++ (body ++ rest ++ ([] ++ [')']))))) :=
    .call hn h₁ h₂ harg hp isGap_nil
  simpa using hcall

theorem completes_nil : Completes WritesNested [] :=
  ⟨['x'], .variable "x", (WritesFactor.column (.plain (by decide))).nested⟩

mutual

theorem OpensFactor.completes : ∀ {cs : List Char}, OpensFactor cs →
    Completes WritesFactor cs ∨ OpensDivided OpensFactor cs
  | _, @OpensFactor.here name cs g₁ g₂ hn h₁ h₂ => by
    have hcall := completes_call hn h₁ h₂ completes_nil
    rw [List.append_nil] at hcall
    exact .inl hcall
  | _, @OpensFactor.inside name cs g₁ g₂ ds hn h₁ h₂ ht => by
    rcases ht.completes with hc | hdiv | hdiv
    · exact .inl (completes_call hn h₁ h₂ hc)
    · exact .inr ⟨cs ++ (g₁ ++ '(' :: g₂), ds, by simp, .here hn h₁ h₂, hdiv⟩
    · exact .inr (hdiv.map (fun inner => cs ++ (g₁ ++ '(' :: (g₂ ++ inner))) (by simp) fun _ ho =>
        .inside hn h₁ h₂ ho)

theorem OpensLinks.completes : ∀ {symbol ds : List Char}, OpensLinks symbol ds →
    Completes (WritesLinks symbol) ds ∨ OpensDivided (OpensLinks symbol) ds
  | symbol, _, @OpensLinks.last _ g₁ g₂ cs h₁ h₂ hf => by
    rcases hf.completes with ⟨rest, term, hw⟩ | hdiv
    · have hlinks : WritesLinks symbol [term] (g₁ ++ (symbol ++ (g₂ ++ ((cs ++ rest) ++ [])))) :=
        .cons h₁ h₂ hw .nil
      exact .inl ⟨rest, _, by simpa using hlinks⟩
    · exact .inr (hdiv.map (fun inner => g₁ ++ (symbol ++ (g₂ ++ inner))) (by simp) fun _ ho =>
        .last h₁ h₂ ho)
  | symbol, _, @OpensLinks.cons _ term g₁ g₂ cs ds h₁ h₂ hw hl => by
    rcases hl.completes with ⟨rest, terms, hls⟩ | hdiv
    · exact .inl ⟨rest, _, by simpa using WritesLinks.cons h₁ h₂ hw hls⟩
    · exact .inr (hdiv.map (fun inner => g₁ ++ (symbol ++ (g₂ ++ (cs ++ inner)))) (by simp)
        fun _ ho => .cons h₁ h₂ hw ho)

/-- As a response or an argument, a chain is not completed when it is divided itself, or when a
divided chain has begun inside it. -/
theorem OpensTerm.completes : ∀ {ds : List Char}, OpensTerm ds →
    Completes WritesNested ds ∨ Divided ds ∨ OpensDivided OpensTerm ds
  | _, .first hf => by
    rcases hf.completes with ⟨rest, term, hw⟩ | ⟨outer, inner, rfl, houter, hinner⟩
    · exact .inl ⟨rest, term, hw.nested⟩
    · exact .inr (.inr ⟨outer, inner, rfl, .first houter, hinner⟩)
  | _, @OpensTerm.links .interaction first cs ds hw hl => by
    rcases hl.completes with ⟨rest, others, hls⟩ | hdiv
    · exact .inl ⟨rest, _, by simpa using writesNested_of_interaction hw hls⟩
    · exact .inr (.inr (hdiv.map (fun inner => cs ++ inner) (by simp) fun _ ho =>
        .links hw ho))
  | _, @OpensTerm.links .crossing first cs ds hw hl => by
    -- A crossing is refused here, so the chain has to repeat its first factor.
    by_cases hrepeat : ∃ count rest,
        WritesLinks ['&', '&'] (List.replicate count first) (ds ++ rest)
    · obtain ⟨count, rest, hls⟩ := hrepeat
      exact .inl ⟨rest, first, by simpa using writesNested_of_replicate hw hls⟩
    · exact .inr (.inl ⟨first, cs, ds, rfl, hw, hl, fun count rest hls =>
        hrepeat ⟨count, rest, hls⟩⟩)

end

/-- As an item, a chain may be completed to a crossing. -/
theorem OpensTerm.completes_item (h : OpensTerm ds) :
    Completes WritesTerm ds ∨ OpensDivided OpensTerm ds := by
  cases h with
  | first hf =>
    rcases hf.completes with ⟨rest, term, hw⟩ | ⟨outer, inner, rfl, houter, hinner⟩
    · exact .inl ⟨rest, term, hw.nested.1⟩
    · exact .inr ⟨outer, inner, rfl, .first houter, hinner⟩
  | @links link first cs ds hw hl =>
    rcases hl.completes with ⟨rest, others, hls⟩ | hdiv
    · have hterm : WritesTerm (link.join (first :: others)) (cs ++ (ds ++ rest)) := by
        cases link with
        | interaction => exact .interaction hw hls
        | crossing => exact .crossing hw hls
      exact .inl ⟨rest, _, by simpa using hterm⟩
    · exact .inr (hdiv.map (fun inner => cs ++ inner) (by simp) fun _ ho =>
        .links hw ho)

end Terms

/-! ## Completing items and formulas -/

section Formulas

variable {sign : Sign} {edit : Edit} {edits : List Edit} {response : Option Term}
  {cs ds ss g₁ g₂ : List Char}

theorem OpensItems.completes (h : OpensItems ds) :
    Completes WritesItems ds ∨ OpensDivided OpensItems ds := by
  induction h with
  | @last sign g₁ g₂ cs h₁ h₂ ht =>
    rcases ht.completes_item with ⟨rest, term, hw⟩ | hdiv
    · have hitem : WritesItem sign (sign.edit term) (cs ++ rest) := writesItem_of_term hw
      exact .inl ⟨rest, _, by simpa using WritesItems.cons h₁ h₂ hitem .nil⟩
    · exact .inr (hdiv.map (fun inner => g₁ ++ signMark sign :: (g₂ ++ inner)) (by simp) fun _ ho =>
        .last h₁ h₂ ho)
  | @cons sign edit g₁ g₂ cs ds h₁ h₂ hi _ ih =>
    rcases ih with ⟨rest, edits, hs⟩ | hdiv
    · exact .inl ⟨rest, _, by simpa using WritesItems.cons h₁ h₂ hi hs⟩
    · exact .inr (hdiv.map (fun inner => g₁ ++ signMark sign :: (g₂ ++ (cs ++ inner))) (by simp)
        fun _ ho => .cons h₁ h₂ hi ho)

theorem OpensRight.completes (h : OpensRight ds) :
    Completes WritesRight ds ∨ OpensDivided OpensRight ds := by
  cases h with
  | @first sign ss cs hsign ht =>
    rcases ht.completes_item with ⟨rest, term, hw⟩ | hdiv
    · exact .inl ⟨rest, _, by simpa using hsign.right (writesItem_of_term hw) .nil⟩
    · exact .inr (hdiv.map (fun inner => ss ++ inner) (by simp) fun _ ho =>
        .first hsign ho)
  | @items sign edit ss cs ds hsign hi hs =>
    rcases hs.completes with ⟨rest, edits, hls⟩ | hdiv
    · exact .inl ⟨rest, _, by simpa using hsign.right hi hls⟩
    · exact .inr (hdiv.map (fun inner => ss ++ (cs ++ inner)) (by simp) fun _ ho =>
        .items hsign hi ho)

theorem completable_of_left (h₁ : IsGap g₁) (h : WritesLeft response cs) :
    Completable (g₁ ++ cs) := by
  have hright : WritesRight [.remove .intercept] ['0'] := .unsigned .removeZero .nil
  exact ⟨['~', '0'], response, _, by simpa using WritesFormula.mk h₁ h isGap_nil hright isGap_nil⟩

theorem completable_of_right (h₁ : IsGap g₁) (h : WritesLeft response cs) (h₂ : IsGap g₂)
    (hr : Completes WritesRight ds) : Completable (g₁ ++ (cs ++ '~' :: (g₂ ++ ds))) := by
  obtain ⟨rest, edits, hr⟩ := hr
  exact ⟨rest, response, edits, by simpa using WritesFormula.mk h₁ h h₂ hr isGap_nil⟩

/-- An open formula can be completed, unless a divided chain has begun in it. -/
theorem OpensFormula.completable (h : OpensFormula cs) :
    Completable cs ∨ OpensDivided OpensFormula cs := by
  cases h with
  | here hg => exact .inl (by simpa using completable_of_left hg .none)
  | @response g cs hg ht =>
    rcases ht.completes with ⟨rest, term, hw, hp⟩ | hdiv | hdiv
    · obtain ⟨rest', response, edits, hf⟩ := completable_of_left hg (.some hw hp isGap_nil)
      exact .inl ⟨rest ++ rest', response, edits, by simpa using hf⟩
    · exact .inr ⟨g, cs, rfl, .here hg, hdiv⟩
    · exact .inr (hdiv.map (fun inner => g ++ inner) (by simp) fun _ ho =>
        .response hg ho)
  | @right response g₁ g₂ cs ds h₁ hl h₂ hr =>
    rcases hr.completes with hc | hdiv
    · exact .inl (completable_of_right h₁ hl h₂ hc)
    · exact .inr (hdiv.map (fun inner => g₁ ++ (cs ++ '~' :: (g₂ ++ inner))) (by simp) fun _ ho =>
        .right h₁ hl h₂ ho)

end Formulas

end ModelFormula.Grammar
