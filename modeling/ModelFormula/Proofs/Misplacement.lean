import ModelFormula.Proofs.Derivation

/-! # Misplaced terms

A text may lay out a tree with a wildcard or a chain by `&&` as its response or as an argument.
Such a text is refused there, unless the chain repeats one factor: the crossing is then a single
operand before it is looked at. So the texts that are read are the layouts of the trees that have
nothing but nestable trees in these places.
-/

namespace ModelFormula.Formula

open Grammar

def Outcome.IsMisplaced {α : Type} (outcome : Outcome α) : Prop :=
  ∃ place, outcome = .misplaced place

variable {cs ds rest symbol : List Char} {depth fuel : Nat}

section Steps

variable {read : List Char → Outcome Term} {g₁ g₂ : List Char}

theorem argument_misplaced {arg : TermTree} {body : List Char} (h₁ : IsGap g₁) (h₂ : IsGap g₂)
    (ha : TermLayout arg body) (h : (read (body ++ rest)).IsMisplaced) :
    (argument read (g₁ ++ '(' :: (g₂ ++ (body ++ rest)))).IsMisplaced := by
  obtain ⟨place, h⟩ := h
  have hopen : skipGap (g₁ ++ '(' :: (g₂ ++ (body ++ rest))) = '(' :: (g₂ ++ (body ++ rest)) := by
    rw [skipGap_append h₁, skipGap_cons (by decide)]
  refine ⟨place, ?_⟩
  simp only [argument, hopen, skipGap_append h₂, skipGap_termLayout ha, h]

theorem factor_of_argument_misplaced {name : String} (hn : WritesName name cs) (he : NameEnds ds)
    (h : (argument read ds).IsMisplaced) : (factor read (cs ++ ds)).IsMisplaced := by
  obtain ⟨place, h⟩ := h
  exact ⟨place, by simp only [factor, name?_of_writesName hn he, h]⟩

theorem chain_of_factor_misplaced {f : FactorTree} (hs : IsLink symbol) (h₁ : IsGap g₁)
    (h₂ : IsGap g₂) (hf : FactorLayout f cs) (h : (read (cs ++ ds)).IsMisplaced) :
    (chain symbol read (fuel + 1) (g₁ ++ (symbol ++ (g₂ ++ (cs ++ ds))))).IsMisplaced := by
  obtain ⟨place, h⟩ := h
  refine ⟨place, ?_⟩
  rw [chain, skipGap_append h₁, hs.skipGap_append, hs.isPrefixOf?]
  simp only [skipGap_append h₂, skipGap_factorLayout hf, h]

theorem chain_of_chain_misplaced {f : FactorTree} {term : Term} (hs : IsLink symbol)
    (h₁ : IsGap g₁) (h₂ : IsGap g₂) (hf : FactorLayout f cs) (hread : read (cs ++ ds) = .ok term ds)
    (h : (chain symbol read fuel ds).IsMisplaced) :
    (chain symbol read (fuel + 1) (g₁ ++ (symbol ++ (g₂ ++ (cs ++ ds))))).IsMisplaced := by
  obtain ⟨place, h⟩ := h
  refine ⟨place, ?_⟩
  rw [chain, skipGap_append h₁, hs.skipGap_append, hs.isPrefixOf?]
  simp only [skipGap_append h₂, skipGap_factorLayout hf, hread, h]

theorem operands_misplaced {link : Link} {first : Term} {fs : List FactorTree}
    (hl : LinksLayout link.symbol fs cs) (hr : StopsAt termMarks rest)
    (h : (chain link.symbol read (cs ++ rest).length (cs ++ rest)).IsMisplaced) :
    (operands read first (cs ++ rest)).IsMisplaced := by
  obtain ⟨place, h⟩ := h
  refine ⟨place, ?_⟩
  cases link with
  | interaction =>
    rw [Link.symbol] at h
    rw [operands, h]
  | crossing =>
    rw [Link.symbol] at hl h
    rw [operands, chain_nil _ (isPrefixOf?_of_crossingLayout hl hr)]
    simp only [h]

theorem termOf_of_factor_misplaced {f : FactorTree} (hf : FactorLayout f cs)
    (h : (read (cs ++ ds)).IsMisplaced) : (termOf read (cs ++ ds)).IsMisplaced := by
  obtain ⟨place, h⟩ := h
  obtain ⟨c, es, rfl, hc⟩ := exists_head_of_factorLayout hf
  rw [List.cons_append] at h ⊢
  exact ⟨place, by rw [termOf_head hc, h]⟩

end Steps

/-! ## Terms -/

section Terms

theorem not_forall_append {α : Type} {P : α → Prop} {xs ys : List α}
    (h : ¬ ∀ x ∈ xs ++ ys, P x) : (¬ ∀ x ∈ xs, P x) ∨ (∀ x ∈ xs, P x) ∧ ¬ ∀ y ∈ ys, P y := by
  rw [List.forall_mem_append, not_and] at h
  by_cases hx : ∀ x ∈ xs, P x
  · exact .inr ⟨hx, h hx⟩
  · exact .inl hx

/-- An argument is refused for what is inside it, or else for itself. -/
theorem nested_misplaced {tree : TermTree} (ht : TermLayout tree cs) (hd : cs.length ≤ depth)
    (hr : StopsAt termMarks rest) (h : ¬ ∀ t ∈ tree :: tree.arguments, t.Nestable)
    (hinner : (¬ ∀ t ∈ tree.arguments, t.Nestable) →
      (termOf (factor (nested depth)) (cs ++ rest)).IsMisplaced) :
    (nested (depth + 1) (cs ++ rest)).IsMisplaced := by
  rw [nested]
  by_cases hall : ∀ t ∈ tree.arguments, t.Nestable
  · have hself : tree.term.isPlaceholder = true := by
      rw [List.forall_mem_cons, nestable_iff] at h
      simpa using fun he => h ⟨he, hall⟩
    have hread := termOf_of_writes (writesTerm_of_layout ht hall) hd hr
    exact ⟨cs ++ rest, by rw [hread, Outcome.placed, if_pos hself]⟩
  · obtain ⟨place, hplace⟩ := hinner hall
    exact ⟨place, by rw [hplace, Outcome.placed]⟩

mutual

theorem factor_misplaced : ∀ {f : FactorTree} {cs rest : List Char} {depth : Nat},
    FactorLayout f cs → cs.length ≤ depth → (¬ ∀ t ∈ f.arguments, t.Nestable) →
    (factor (nested depth) (cs ++ rest)).IsMisplaced
  | _, _, _, _, .column _, _, h => absurd (fun _ ht => nomatch ht) h
  | .call _ arg, _, rest, depth, @FactorLayout.call name _ cs body g₁ g₂ g₃ hn h₁ h₂ ha h₃,
      hd, h => by
    obtain ⟨depth, rfl⟩ : ∃ d, depth = d + 1 := by
      cases depth with
      | zero => simp at hd
      | succ d => exact ⟨d, rfl⟩
    have hclose : StopsAt termMarks (g₃ ++ ')' :: rest) :=
      (stopsAt_gap h₃).mpr (stopsAt_cons (by decide) (by decide))
    have hbody : body.length ≤ depth := by
      simp only [List.length_append, List.length_cons] at hd
      omega
    have hread := nested_misplaced ha hbody hclose h fun hinner =>
      termOf_misplaced ha hbody hclose hinner
    have hcall := factor_of_argument_misplaced hn (nameEnds_gap h₁ (by decide))
      (argument_misplaced h₁ h₂ ha hread)
    simpa using hcall

theorem chain_misplaced : ∀ {symbol : List Char} {fs : List FactorTree} {cs rest : List Char}
    {depth fuel : Nat}, LinksLayout symbol fs cs → IsLink symbol → cs.length ≤ depth →
    fs.length ≤ fuel → StopsAt termMarks rest →
    (¬ ∀ t ∈ FactorTree.allArguments fs, t.Nestable) →
    (chain symbol (factor (nested depth)) fuel (cs ++ rest)).IsMisplaced
  | _, _, _, _, _, _, .nil, _, _, _, _, h => absurd (fun _ ht => nomatch ht) h
  | symbol, _ :: _, _, rest, depth, fuel, @LinksLayout.cons _ f fs g₁ g₂ cs ds h₁ h₂ hf hl,
      hs, hd, hfuel, hr, h => by
    obtain ⟨fuel, rfl⟩ : ∃ k, fuel = k + 1 := by
      cases fuel with
      | zero => simp at hfuel
      | succ k => exact ⟨k, rfl⟩
    simp only [List.length_append] at hd
    rcases not_forall_append h with h | ⟨hall, h⟩
    · have hread : (factor (nested depth) (cs ++ (ds ++ rest))).IsMisplaced :=
        factor_misplaced hf (by omega) h
      simpa using chain_of_factor_misplaced hs h₁ h₂ hf hread
    · have hread : factor (nested depth) (cs ++ (ds ++ rest)) = .ok f.term (ds ++ rest) :=
        factor_of_writes (writesFactor_of_layout hf hall) (by omega) (stopsAt_linksLayout hl hs hr)
      have htail : (chain symbol (factor (nested depth)) fuel (ds ++ rest)).IsMisplaced :=
        chain_misplaced hl hs (by omega) (Nat.le_of_succ_le_succ hfuel) hr h
      simpa using chain_of_chain_misplaced hs h₁ h₂ hf hread htail

theorem termOf_misplaced : ∀ {tree : TermTree} {cs rest : List Char} {depth : Nat},
    TermLayout tree cs → cs.length ≤ depth → StopsAt termMarks rest →
    (¬ ∀ t ∈ tree.arguments, t.Nestable) →
    (termOf (factor (nested depth)) (cs ++ rest)).IsMisplaced
  | _, _, _, _, .dot, _, _, h => absurd (fun _ ht => nomatch ht) h
  | .chain _ _ _, _, rest, depth, @TermLayout.chain link first others cs ds hf hl, hd, hr, h => by
    rw [List.length_append] at hd
    rw [List.append_assoc]
    rcases not_forall_append h with h | ⟨hall, h⟩
    · exact termOf_of_factor_misplaced hf (factor_misplaced hf (by omega) h)
    · have hlink := isLink_symbol link
      have hread : factor (nested depth) (cs ++ (ds ++ rest)) = .ok first.term (ds ++ rest) :=
        factor_of_writes (writesFactor_of_layout hf hall) (by omega)
          (stopsAt_linksLayout hl hlink hr)
      have hfuel : others.length ≤ (ds ++ rest).length := by
        rw [List.length_append]
        exact Nat.le_add_right_of_le (length_le_of_linksLayout hl hlink)
      rw [termOf_factor (writesFactor_of_layout hf hall) hread]
      exact operands_misplaced hl hr (chain_misplaced hl hlink (by omega) hfuel hr h)

end

end Terms

/-! ## Items and formulas -/

section Formulas

variable {sign : Sign} {itemTree : ItemTree} {trees : List (Sign × ItemTree)} {g : List Char}
  {text : List Char}

theorem item_misplaced (h : ItemLayout itemTree cs) (hd : cs.length ≤ depth)
    (hr : StopsAt termMarks rest) (hn : ¬ ∀ t ∈ itemTree.arguments, t.Nestable) :
    (item depth sign (cs ++ rest)).IsMisplaced := by
  cases h with
  | zero | one => exact absurd (fun _ ht => nomatch ht) hn
  | term ht =>
    obtain ⟨place, hread⟩ := termOf_misplaced ht hd hr hn
    obtain ⟨c, ds, rfl, hc⟩ := exists_head_of_termLayout ht
    rw [List.cons_append] at hread ⊢
    exact ⟨place, by rw [item_of_head hc, hread]⟩

theorem items_misplaced (h : ItemsLayout trees cs) (hd : cs.length ≤ depth)
    (hfuel : trees.length ≤ fuel) (hg : IsGap g)
    (hn : ¬ ∀ t ∈ trees.flatMap fun item => item.2.arguments, t.Nestable) :
    (items depth fuel (cs ++ g)).IsMisplaced := by
  induction h generalizing fuel with
  | nil => exact absurd (fun _ ht => nomatch ht) hn
  | @cons sign itemTree trees g₁ g₂ cs ds h₁ h₂ hi hs ih =>
    cases fuel with
    | zero => simp at hfuel
    | succ fuel =>
      obtain ⟨hgap, -, hsign⟩ := signMark_facts sign
      have hstop := stopsAt_itemsLayout hs hg
      simp only [List.length_append, List.length_cons] at hd
      simp only [List.append_assoc, List.cons_append]
      rw [items, skipGap_append h₁, skipGap_cons hgap, hsign]
      simp only [skipGap_append h₂, skipGap_itemLayout hi]
      rcases not_forall_append hn with hn | ⟨hall, hn⟩
      · obtain ⟨place, hread⟩ : (item depth sign (cs ++ (ds ++ g))).IsMisplaced :=
          item_misplaced hi (by omega) hstop hn
        exact ⟨place, by rw [hread]⟩
      · have hread : item depth sign (cs ++ (ds ++ g)) = .ok (itemTree.edit sign) (ds ++ g) :=
          item_of_writes (writesItem_of_layout hi hall) (by omega) hstop
        obtain ⟨place, hrest⟩ := ih (by omega) (Nat.le_of_succ_le_succ hfuel) hn
        exact ⟨place, by simp only [hread, hrest]⟩

theorem firstItem_of_layout (h : RightLayout trees cs) :
    ∃ sign itemTree others is ds, trees = (sign, itemTree) :: others ∧ ItemLayout itemTree is ∧
      ItemsLayout others ds ∧ is.length + ds.length ≤ cs.length ∧ ∀ depth rest,
        firstItem depth (skipGap (cs ++ rest)) =
          (is ++ (ds ++ rest), item depth sign (is ++ (ds ++ rest))) := by
  cases h with
  | @unsigned itemTree others cs ds hi hs =>
    refine ⟨.plus, itemTree, others, cs, ds, rfl, hi, hs, by simp, fun depth rest => ?_⟩
    rw [List.append_assoc]
    exact firstItem_of_sign .omitted (exists_head_of_itemLayout hi)
  | @signed sign itemTree others g cs ds hg hi hs =>
    refine ⟨sign, itemTree, others, cs, ds, rfl, hi, hs, ?_, fun depth rest => ?_⟩
    · simp only [List.length_append, List.length_cons]
      omega
    · rw [List.cons_append, List.append_assoc, List.append_assoc]
      exact firstItem_of_sign (.given hg) (exists_head_of_itemLayout hi)

theorem rightSide_misplaced (h : RightLayout trees ds) (hd : ds.length ≤ text.length)
    (hg : IsGap g) {g' : List Char} (hg' : IsGap g')
    (hn : ¬ ∀ t ∈ trees.flatMap fun item => item.2.arguments, t.Nestable) :
    ∃ place, rightSide text (g ++ (ds ++ g')) = .error (refusal text place .misplaced) := by
  obtain ⟨sign, itemTree, others, is, es, rfl, hi, hs, hle, hfirst⟩ := firstItem_of_layout h
  have hstop := stopsAt_itemsLayout hs hg'
  rw [rightSide, skipGap_append hg, hfirst]
  rcases not_forall_append hn with hn | ⟨hall, hn⟩
  · obtain ⟨place, hread⟩ : (item text.length sign (is ++ (es ++ g'))).IsMisplaced :=
      item_misplaced hi (by omega) hstop hn
    exact ⟨place, by rw [hread]⟩
  · have hread : item text.length sign (is ++ (es ++ g')) = .ok (itemTree.edit sign) (es ++ g') :=
      item_of_writes (writesItem_of_layout hi hall) (by omega) hstop
    have hfuel : others.length ≤ (es ++ g').length := by
      rw [List.length_append]
      exact Nat.le_add_right_of_le (length_le_of_itemsLayout hs)
    obtain ⟨place, hrest⟩ : (items text.length (es ++ g').length (es ++ g')).IsMisplaced :=
      items_misplaced hs (by omega) hfuel hg' hn
    exact ⟨place, by simp only [hread, hrest]⟩

theorem script_of_misplaced (h : (nested cs.length (skipGap cs)).IsMisplaced) :
    ∃ position, script cs = .error ⟨position, .misplaced⟩ := by
  obtain ⟨place, h⟩ := h
  exact ⟨_, by simp only [script, h]; rfl⟩

theorem script_misplaced {tree : FormulaTree} (h : FormulaLayout tree cs)
    (hn : ¬ ∀ t ∈ tree.nested, t.Nestable) :
    ∃ position, script cs = .error ⟨position, .misplaced⟩ := by
  cases h with
  | @mk response trees g₁ g₂ g₃ cs ds h₁ hl h₂ hr h₃ =>
    generalize htext : g₁ ++ (cs ++ '~' :: (g₂ ++ (ds ++ g₃))) = text
    have hlength : cs.length + ds.length + 1 ≤ text.length := by
      rw [← htext]
      simp only [List.length_append, List.length_cons]
      omega
    have hright := fun hn => rightSide_misplaced hr (show ds.length ≤ text.length by omega) h₂ h₃ hn
    cases hl with
    | none =>
      obtain ⟨place, hread⟩ := hright hn
      exact ⟨_, by rw [script_of_left h₁ .none htext.symm, hread]; rfl⟩
    | @some tree cs g ht hg =>
      rcases not_forall_append hn with hn | ⟨hall, hn⟩
      · rw [Option.toList_some, List.flatMap_singleton] at hn
        have hskip : skipGap text = cs ++ (g ++ '~' :: (g₂ ++ (ds ++ g₃))) := by
          rw [← htext, skipGap_append h₁, List.append_assoc, skipGap_termLayout ht]
        have hstop : StopsAt termMarks (g ++ '~' :: (g₂ ++ (ds ++ g₃))) :=
          (stopsAt_gap hg).mpr (stopsAt_cons (by decide) (by decide))
        rw [List.length_append] at hlength
        obtain ⟨depth, hdepth⟩ : ∃ d, text.length = d + 1 := ⟨text.length - 1, by omega⟩
        have hd : cs.length ≤ depth := by omega
        refine script_of_misplaced ?_
        rw [hskip, hdepth]
        exact nested_misplaced ht hd hstop hn (termOf_misplaced ht hd hstop)
      · rw [Option.toList_some, List.flatMap_singleton, List.forall_mem_cons] at hall
        have hleft : WritesLeft (some tree.term) (cs ++ g) :=
          .some (writesTerm_of_layout ht hall.2) (nestable_iff.mp hall.1) hg
        obtain ⟨place, hread⟩ := hright hn
        exact ⟨_, by rw [script_of_left h₁ hleft htext.symm, hread]; rfl⟩

end Formulas

variable {text : String} {f : Formula} {tree : FormulaTree}

/-- A layout of a tree is read as the formula of the tree when nothing is misplaced in it. -/
theorem parse_of_formulaLayout (h : FormulaLayout tree text.toList)
    (hn : ∀ t ∈ tree.nested, t.Nestable) : parse text = .ok tree.formula :=
  parse_eq_ok_iff.mpr ⟨_, _, writesFormula_of_layout h hn, rfl⟩

theorem exists_layout_of_parse (h : parse text = .ok f) : ∃ tree, FormulaLayout tree text.toList ∧
    (∀ t ∈ tree.nested, t.Nestable) ∧ tree.formula = f := by
  obtain ⟨response, edits, hw, rfl⟩ := parse_eq_ok_iff.mp h
  obtain ⟨tree, hlayout, rfl, rfl, hn⟩ := exists_layout_of_writesFormula hw
  exact ⟨tree, hlayout, hn, rfl⟩

/-- The texts that are read are the layouts of trees with nestable trees as response and arguments,
and every layout of another tree is refused because of a misplaced term. -/
theorem parse_iff_formulaLayout (text : String) :
    (∀ f, parse text = .ok f ↔ ∃ tree, FormulaLayout tree text.toList ∧
      (∀ t ∈ tree.nested, t.Nestable) ∧ tree.formula = f) ∧
    ∀ tree, FormulaLayout tree text.toList → (∃ t ∈ tree.nested, ¬ t.Nestable) →
      ∃ position, parse text = .error ⟨position, .misplaced⟩ := by
  refine ⟨fun f => ⟨exists_layout_of_parse, ?_⟩, fun tree h ⟨t, ht, hn⟩ => ?_⟩
  · rintro ⟨tree, hlayout, hn, rfl⟩
    exact parse_of_formulaLayout hlayout hn
  · obtain ⟨position, hscript⟩ := script_misplaced h fun hall => hn (hall t ht)
    exact ⟨position, by rw [parse, hscript]; rfl⟩

/-! ## A repeated factor -/

theorem eq_chain_of_term_eq {t : TermTree} {name : String} (h : t.term = .variable name)
    (hp : ¬ t.IsPlaceholder) : ∃ link, t = .chain link (.column name) [] := by
  cases t with
  | dot => cases h
  | chain link first others =>
    have hothers : others = [] := by
      cases link with
      | crossing => simpa [TermTree.IsPlaceholder] using hp
      | interaction =>
        rw [TermTree.term, Link.join, Term.interactionOf, terms_eq, ← List.map_cons,
          Term.flatMap_factors fun t ht => ?_] at h
        · cases others with
          | nil => rfl
          | cons => cases h
        · obtain ⟨factor, -, rfl⟩ := List.mem_map.mp ht
          exact isFactor_term factor
    subst hothers
    have hfirst : first.term = .variable name := by
      cases link with
      | crossing => rwa [← crossingOf_singleton first.term]
      | interaction => cases first <;> exact h
    cases first with
    | call => cases hfirst
    | column => exact ⟨link, by rw [Term.variable.inj hfirst]⟩

theorem mem_of_leftLayout {name : String} {link : Link}
    (h : LeftLayout (some (.chain link (.column name) [])) cs) {c : Char} (hc : c ∈ cs) :
    c ∈ name.toList ∨ c = quoteMark ∨ isGap c = true := by
  cases h with
  | some ht hg =>
    rcases List.mem_append.mp hc with hc | hc
    · cases ht with
      | chain hf hl =>
        cases hf with
        | column hn =>
          cases hl
          rw [List.append_nil] at hc
          cases hn with
          | plain => exact .inl hc
          | quoted =>
            simp only [List.mem_cons, List.mem_append, List.not_mem_nil, or_false] at hc
            rcases hc with hc | hc | hc
            · exact .inr (.inl hc)
            · exact .inl hc
            · exact .inr (.inl hc)
    · exact .inr (.inr (isGap_iff.mpr (hg c hc)))

theorem mem_takeWhile_of_formulaLayout {name : String} {link : Link}
    (h : FormulaLayout tree cs) (ht : tree.response = some (.chain link (.column name) []))
    (hname : '~' ∉ name.toList) {c : Char} (hc : c ∈ cs.takeWhile (· != '~')) :
    c ∈ name.toList ∨ c = quoteMark ∨ isGap c = true := by
  cases h with
  | @mk response items g₁ g₂ g₃ cs ds h₁ hl =>
    cases ht
    have hbefore : ∀ c ∈ g₁ ++ cs, c ∈ name.toList ∨ c = quoteMark ∨ isGap c = true :=
      List.forall_mem_append.mpr
        ⟨fun c hc => .inr (.inr (isGap_iff.mpr (h₁ c hc))), fun _ hc => mem_of_leftLayout hl hc⟩
    have hmark : ∀ c ∈ g₁ ++ cs, (c != '~') = true := by
      intro c hc
      rw [bne_iff_ne]
      rintro rfl
      rcases hbefore _ hc with h | h | h
      · exact hname h
      · exact absurd h (by decide)
      · exact absurd h (by decide)
    rw [← List.append_assoc, List.takeWhile_append_of_pos hmark] at hc
    exact hbefore c (by simpa using hc)

/-- The text `a && a ~ b` says that the response is a crossing. -/
theorem exists_formulaLayout_repeated : ∃ tree, FormulaLayout tree "a && a ~ b".toList ∧
    ∃ t ∈ tree.nested, t.IsPlaceholder := by
  have hgap : IsGap [' '] := by
    intro c hc
    rw [List.mem_singleton.mp hc]
    decide
  have hnil : IsGap [] := fun _ hc => nomatch hc
  have ha : FactorLayout (.column "a") ['a'] := .column (.plain (by decide))
  have hb : FactorLayout (.column "b") ['b'] := .column (.plain (by decide))
  have hleft : LeftLayout (some (.chain .crossing (.column "a") [.column "a"]))
      ['a', ' ', '&', '&', ' ', 'a', ' '] :=
    .some (.chain ha (.cons hgap hgap ha .nil)) hgap
  have hright : RightLayout [(.plus, .term (.chain .interaction (.column "b") []))] ['b'] :=
    .unsigned (.term (.chain hb .nil)) .nil
  exact ⟨_, .mk hnil hleft hgap hright hnil, _, List.mem_cons_self, rfl, by simp⟩

/-- A chain by `&&` that repeats its factor is read as a response, although the text lays out no
tree but those with a crossing there. -/
theorem parse_repeated_crossing :
    (∃ f, parse "a && a ~ b" = .ok f) ∧
    (∃ tree, FormulaLayout tree "a && a ~ b".toList ∧ ∃ t ∈ tree.nested, t.IsPlaceholder) ∧
    ¬ ∃ tree, FormulaLayout tree "a && a ~ b".toList ∧ ∀ t ∈ tree.nested, ¬ t.IsPlaceholder := by
  obtain ⟨f, hf, hresponse⟩ : ∃ f, parse "a && a ~ b" = .ok f ∧
      f.responseTerm? = some (.variable "a") := ⟨_, rfl, rfl⟩
  refine ⟨⟨f, hf⟩, exists_formulaLayout_repeated, ?_⟩
  rintro ⟨tree, hlayout, hn⟩
  -- Without a crossing, the response that is read could only be written as a column.
  have hparse := parse_of_formulaLayout hlayout fun t ht => nestable_of_not_isPlaceholder (hn t ht)
  rw [hf, Except.ok.injEq] at hparse
  rw [hparse, FormulaTree.formula, responseTerm?_run, responseTerm?_ofResponse] at hresponse
  obtain ⟨t, ht, hterm⟩ := Option.map_eq_some_iff.mp hresponse
  have hmem : t ∈ tree.nested := by simp [FormulaTree.nested, ht]
  obtain ⟨link, rfl⟩ := eq_chain_of_term_eq hterm (hn t hmem)
  have hamp : '&' ∈ "a && a ~ b".toList.takeWhile (· != '~') := by decide
  exact absurd (mem_takeWhile_of_formulaLayout hlayout ht (by decide) hamp) (by decide)

end ModelFormula.Formula
