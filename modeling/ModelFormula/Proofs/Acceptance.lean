import ModelFormula.Proofs.Layout

/-! # Written texts are read

Every way to write a factor, a chain, a term or an item is read to its end, provided that what
comes next cannot belong to it. The bounds on nesting and repetition are met by the length of the
text.
-/

namespace ModelFormula.Formula

open Grammar

variable {cs ds rest symbol : List Char} {term first : Term} {terms others : List Term}

theorem stopsAt_links (h : WritesLinks symbol terms cs) (hs : IsLink symbol)
    (hr : StopsAt termMarks rest) : StopsAt factorMarks (cs ++ rest) := by
  obtain ⟨factors, hlayout, -, -⟩ := exists_layout_of_writesLinks h
  exact stopsAt_linksLayout hlayout hs hr

theorem exists_head_of_writesFactor (h : WritesFactor term cs) :
    ∃ c ds, cs = c :: ds ∧ IsNameHead c := by
  obtain ⟨factor, hlayout, -, -⟩ := exists_layout_of_writesFactor h
  exact exists_head_of_factorLayout hlayout

theorem skipGap_writesFactor (h : WritesFactor term cs) : skipGap (cs ++ ds) = cs ++ ds := by
  obtain ⟨factor, hlayout, -, -⟩ := exists_layout_of_writesFactor h
  exact skipGap_factorLayout hlayout

theorem exists_head_of_writesTerm (h : WritesTerm term cs) :
    ∃ c ds, cs = c :: ds ∧ (c = '.' ∨ IsNameHead c) := by
  obtain ⟨tree, hlayout, -, -⟩ := exists_layout_of_writesTerm h
  exact exists_head_of_termLayout hlayout

theorem skipGap_writesTerm (h : WritesTerm term cs) : skipGap (cs ++ ds) = cs ++ ds := by
  obtain ⟨tree, hlayout, -, -⟩ := exists_layout_of_writesTerm h
  exact skipGap_termLayout hlayout

theorem isPrefixOf?_of_crossing (h : WritesLinks ['&', '&'] terms cs)
    (hr : StopsAt termMarks rest) : [':', ':'].isPrefixOf? (skipGap (cs ++ rest)) = none := by
  obtain ⟨factors, hlayout, -, -⟩ := exists_layout_of_writesLinks h
  exact isPrefixOf?_of_crossingLayout hlayout hr

theorem interactionOf_singleton (h : WritesFactor term cs) : Term.interactionOf [term] = term := by
  cases h <;> rfl

theorem crossingOf_singleton (term : Term) : Term.crossingOf [term] = term := by
  have h : [term].eraseDups = [term] := by simp [List.eraseDups_cons]
  rw [Term.crossingOf, h]

theorem length_le_of_writesLinks (h : WritesLinks symbol terms cs) (hs : IsLink symbol) :
    terms.length ≤ (cs ++ rest).length := by
  obtain ⟨factors, hlayout, rfl, -⟩ := exists_layout_of_writesLinks h
  rw [terms_eq, List.length_map, List.length_append]
  exact Nat.le_add_right_of_le (length_le_of_linksLayout hlayout hs)

section Steps

variable {read : List Char → Outcome Term} {name : String} {body g₁ g₂ g₃ : List Char} {arg : Term}

theorem argument_of_stopsAt (hr : StopsAt factorMarks rest) : argument read rest = .miss := by
  unfold argument
  split
  · next h => exact absurd (hr.mem_of_skipGap h) (by decide)
  · rfl

theorem argument_of_read (h₁ : IsGap g₁) (h₂ : IsGap g₂) (ha : WritesTerm arg body) (h₃ : IsGap g₃)
    (h : read (body ++ (g₃ ++ ')' :: rest)) = .ok arg (g₃ ++ ')' :: rest)) :
    argument read (g₁ ++ '(' :: (g₂ ++ (body ++ (g₃ ++ ')' :: rest)))) = .ok arg rest := by
  have hopen : skipGap (g₁ ++ '(' :: (g₂ ++ (body ++ (g₃ ++ ')' :: rest)))) =
      '(' :: (g₂ ++ (body ++ (g₃ ++ ')' :: rest))) := by
    rw [skipGap_append h₁, skipGap_cons (by decide)]
  have hclose : skipGap (g₃ ++ ')' :: rest) = ')' :: rest := by
    rw [skipGap_append h₃, skipGap_cons (by decide)]
  simp only [argument, hopen, skipGap_append h₂, skipGap_writesTerm ha, h, hclose]

theorem factor_column (hn : WritesName name cs) (hr : StopsAt factorMarks rest) :
    factor read (cs ++ rest) = .ok (.variable name) rest := by
  simp only [factor, name?_of_writesName hn hr.nameEnds, argument_of_stopsAt hr]

theorem factor_call (hn : WritesName name cs) (he : NameEnds ds)
    (h : argument read ds = .ok arg rest) :
    factor read (cs ++ ds) = .ok (.function name arg) rest := by
  simp only [factor, name?_of_writesName hn he, h]

theorem chain_nil (fuel : Nat) (h : symbol.isPrefixOf? (skipGap cs) = none) :
    chain symbol read fuel cs = .ok [] cs := by
  cases fuel with
  | zero => rfl
  | succ fuel => rw [chain, h]

theorem chain_cons {fuel : Nat} (hs : IsLink symbol) (h₁ : IsGap g₁) (h₂ : IsGap g₂)
    (hf : WritesFactor term cs) (h : read (cs ++ ds) = .ok term ds)
    (h' : chain symbol read fuel ds = .ok terms rest) :
    chain symbol read (fuel + 1) (g₁ ++ (symbol ++ (g₂ ++ (cs ++ ds)))) =
      .ok (term :: terms) rest := by
  rw [chain, skipGap_append h₁, hs.skipGap_append, hs.isPrefixOf?]
  simp only [skipGap_append h₂, skipGap_writesFactor hf, h, h']

theorem operands_interaction (hn : terms ≠ [])
    (h : chain [':', ':'] read cs.length cs = .ok terms rest) :
    operands read first cs = .ok (.interactionOf (first :: terms)) rest := by
  cases terms with
  | nil => exact absurd rfl hn
  | cons term terms => rw [operands, h]

theorem operands_crossing (hn : terms ≠ []) (h : chain [':', ':'] read cs.length cs = .ok [] cs)
    (h' : chain ['&', '&'] read cs.length cs = .ok terms rest) :
    operands read first cs = .ok (.crossingOf (first :: terms)) rest := by
  cases terms with
  | nil => exact absurd rfl hn
  | cons term terms =>
    rw [operands, h]
    simp only [h']

theorem operands_nil (h : ∀ symbol, IsLink symbol → symbol.isPrefixOf? (skipGap cs) = none) :
    operands read first cs = .ok first cs := by
  rw [operands, chain_nil _ (h _ (Or.inl rfl))]
  simp only [chain_nil _ (h _ (Or.inr rfl))]

theorem operands_of_interaction (hf : WritesFactor first ds) (hl : WritesLinks [':', ':'] terms cs)
    (hr : StopsAt termMarks rest)
    (h : chain [':', ':'] read (cs ++ rest).length (cs ++ rest) = .ok terms rest) :
    operands read first (cs ++ rest) = .ok (.interactionOf (first :: terms)) rest := by
  cases terms with
  | nil =>
    cases hl
    rw [List.nil_append, operands_nil fun _ hs => hs.isPrefixOf?_of_stopsAt hr,
      interactionOf_singleton hf]
  | cons second terms => exact operands_interaction (List.cons_ne_nil _ _) h

theorem operands_of_crossing (hl : WritesLinks ['&', '&'] terms cs) (hr : StopsAt termMarks rest)
    (h : chain ['&', '&'] read (cs ++ rest).length (cs ++ rest) = .ok terms rest) :
    operands read first (cs ++ rest) = .ok (.crossingOf (first :: terms)) rest := by
  have hmiss := isPrefixOf?_of_crossing hl hr
  cases terms with
  | nil =>
    cases hl
    rw [List.nil_append, operands_nil fun _ hs => hs.isPrefixOf?_of_stopsAt hr,
      crossingOf_singleton]
  | cons second terms => exact operands_crossing (List.cons_ne_nil _ _) (chain_nil _ hmiss) h

theorem termOf_dot (hr : NameEnds rest) : termOf read ('.' :: rest) = .ok .dot rest := by
  rw [termOf, literal?_self hr]

theorem termOf_head {c : Char} (hc : IsNameHead c) :
    termOf read (c :: cs) = match read (c :: cs) with
      | .ok first rest => operands read first rest
      | .miss => .miss
      | .misplaced place => .misplaced place := by
  have hdot : literal? '.' (c :: cs) = none := literal?_ne (hc.ne (by decide) (by decide))
  cases hread : read (c :: cs) <;> simp only [termOf, hdot, hread]

theorem termOf_factor (hf : WritesFactor first cs) (h : read (cs ++ ds) = .ok first ds) :
    termOf read (cs ++ ds) = operands read first ds := by
  obtain ⟨c, es, rfl, hc⟩ := exists_head_of_writesFactor hf
  rw [List.cons_append] at h ⊢
  rw [termOf_head hc, h]

theorem nested_of_termOf {depth : Nat} (hp : term.isPlaceholder = false)
    (h : termOf (factor (nested depth)) cs = .ok term rest) :
    nested (depth + 1) cs = .ok term rest := by
  rw [nested, h, Outcome.placed, hp]
  rfl

end Steps

mutual

theorem factor_of_writes : ∀ {term : Term} {cs rest : List Char} {depth : Nat},
    WritesFactor term cs → cs.length ≤ depth → StopsAt factorMarks rest →
    factor (nested depth) (cs ++ rest) = .ok term rest
  | _, _, _, _, .column hn, _, hr => factor_column hn hr
  | _, _, rest, depth, @WritesFactor.call name arg cs body g₁ g₂ g₃ hn h₁ h₂ ha hp h₃, hd, _ => by
    obtain ⟨depth, rfl⟩ : ∃ d, depth = d + 1 := by
      cases depth with
      | zero => simp at hd
      | succ d => exact ⟨d, rfl⟩
    have hclose : StopsAt termMarks (g₃ ++ ')' :: rest) :=
      (stopsAt_gap h₃).mpr (stopsAt_cons (by decide) (by decide))
    have hbody : body.length ≤ depth := by
      simp only [List.length_append, List.length_cons] at hd
      omega
    have hread := nested_of_termOf hp (termOf_of_writes ha hbody hclose)
    have hcall := factor_call hn (nameEnds_gap h₁ (by decide)) (argument_of_read h₁ h₂ ha h₃ hread)
    simpa using hcall

theorem chain_of_writes : ∀ {symbol : List Char} {terms : List Term} {cs rest : List Char}
    {depth fuel : Nat}, WritesLinks symbol terms cs → IsLink symbol → cs.length ≤ depth →
    terms.length ≤ fuel → StopsAt termMarks rest →
    chain symbol (factor (nested depth)) fuel (cs ++ rest) = .ok terms rest
  | _, _, _, _, _, _, .nil, hs, _, _, hr => chain_nil _ (hs.isPrefixOf?_of_stopsAt hr)
  | symbol, _, _, rest, depth, fuel, @WritesLinks.cons _ term terms g₁ g₂ cs ds h₁ h₂ hf hl,
      hs, hd, hfuel, hr => by
    obtain ⟨fuel, rfl⟩ : ∃ k, fuel = k + 1 := by
      cases fuel with
      | zero => simp at hfuel
      | succ k => exact ⟨k, rfl⟩
    simp only [List.length_append] at hd
    have hread : factor (nested depth) (cs ++ (ds ++ rest)) = .ok term (ds ++ rest) :=
      factor_of_writes hf (by omega) (stopsAt_links hl hs hr)
    have htail : chain symbol (factor (nested depth)) fuel (ds ++ rest) = .ok terms rest :=
      chain_of_writes hl hs (by omega) (Nat.le_of_succ_le_succ hfuel) hr
    simpa using chain_cons hs h₁ h₂ hf hread htail

theorem termOf_of_writes : ∀ {term : Term} {cs rest : List Char} {depth : Nat},
    WritesTerm term cs → cs.length ≤ depth → StopsAt termMarks rest →
    termOf (factor (nested depth)) (cs ++ rest) = .ok term rest
  | _, _, _, _, .dot, _, hr => termOf_dot hr.factor.nameEnds
  | _, _, rest, depth, @WritesTerm.interaction first others cs ds hf hl, hd, hr => by
    rw [List.length_append] at hd
    have hlink : IsLink [':', ':'] := Or.inl rfl
    have hread : factor (nested depth) (cs ++ (ds ++ rest)) = .ok first (ds ++ rest) :=
      factor_of_writes hf (by omega) (stopsAt_links hl hlink hr)
    have hchain : chain [':', ':'] (factor (nested depth)) (ds ++ rest).length (ds ++ rest) =
        .ok others rest :=
      chain_of_writes hl hlink (by omega) (length_le_of_writesLinks hl hlink) hr
    rw [List.append_assoc, termOf_factor hf hread]
    exact operands_of_interaction hf hl hr hchain
  | _, _, rest, depth, @WritesTerm.crossing first others cs ds hf hl, hd, hr => by
    rw [List.length_append] at hd
    have hlink : IsLink ['&', '&'] := Or.inr rfl
    have hread : factor (nested depth) (cs ++ (ds ++ rest)) = .ok first (ds ++ rest) :=
      factor_of_writes hf (by omega) (stopsAt_links hl hlink hr)
    have hchain : chain ['&', '&'] (factor (nested depth)) (ds ++ rest).length (ds ++ rest) =
        .ok others rest :=
      chain_of_writes hl hlink (by omega) (length_le_of_writesLinks hl hlink) hr
    rw [List.append_assoc, termOf_factor hf hread]
    exact operands_of_crossing hl hr hchain

end

/-! ## Items and formulas -/

section Items

variable {sign : Sign} {edit : Edit} {edits : List Edit} {response : Option Term}
  {g : List Char} {depth : Nat}

theorem exists_head_of_writesItem (h : WritesItem sign edit cs) :
    ∃ c ds, cs = c :: ds ∧ IsItemHead c := by
  obtain ⟨item, hlayout, -, -⟩ := exists_layout_of_writesItem h
  exact exists_head_of_itemLayout hlayout

theorem skipGap_writesItem (h : WritesItem sign edit cs) : skipGap (cs ++ ds) = cs ++ ds := by
  obtain ⟨c, es, rfl, hc⟩ := exists_head_of_writesItem h
  exact skipGap_cons hc.isGap

theorem item_one (hr : NameEnds rest) :
    item depth sign ('1' :: rest) = .ok (sign.edit .intercept) rest := by
  have h0 : literal? '0' ('1' :: rest) = none := literal?_ne (by decide)
  rw [item, h0, literal?_self hr]

theorem item_zero (hr : NameEnds rest) :
    item depth sign ('0' :: rest) = .ok (sign.opposite.edit .intercept) rest := by
  rw [item, literal?_self hr]

theorem item_of_head {c : Char} (hc : c = '.' ∨ IsNameHead c) :
    item depth sign (c :: cs) = match termOf (factor (nested depth)) (c :: cs) with
      | .ok term rest => .ok (sign.edit term) rest
      | .miss => .miss
      | .misplaced place => .misplaced place := by
  have hne : ∀ d ∈ ['0', '1'], c ≠ d := by
    intro d h01
    simp only [List.mem_cons, List.not_mem_nil, or_false] at h01
    rcases hc with rfl | hc
    · rcases h01 with rfl | rfl <;> decide
    · rcases h01 with rfl | rfl <;> exact hc.ne (by decide) (by decide)
  cases hread : termOf (factor (nested depth)) (c :: cs) <;>
    simp only [item, literal?_ne (hne '0' (by decide)), literal?_ne (hne '1' (by decide)), hread]

theorem item_term (h : WritesTerm term cs) (hd : cs.length ≤ depth) (hr : StopsAt termMarks rest) :
    item depth sign (cs ++ rest) = .ok (sign.edit term) rest := by
  have hread := termOf_of_writes h hd hr
  obtain ⟨c, ds, rfl, hc⟩ := exists_head_of_writesTerm h
  rw [List.cons_append] at hread ⊢
  rw [item_of_head hc, hread]

theorem item_of_writes (h : WritesItem sign edit cs) (hd : cs.length ≤ depth)
    (hr : StopsAt termMarks rest) : item depth sign (cs ++ rest) = .ok edit rest := by
  have he := hr.factor.nameEnds
  cases h with
  | addOne => exact item_one he
  | removeOne => exact item_one he
  | removeZero => exact item_zero he
  | addZero => exact item_zero he
  | add h => exact item_term h hd hr
  | remove h => exact item_term h hd hr

theorem stopsAt_items (h : WritesItems edits cs) (hg : IsGap g) : StopsAt termMarks (cs ++ g) := by
  obtain ⟨items, hlayout, -, -⟩ := exists_layout_of_writesItems h
  exact stopsAt_itemsLayout hlayout hg

theorem items_of_writes {fuel : Nat} (h : WritesItems edits cs) (hd : cs.length ≤ depth)
    (hf : edits.length ≤ fuel) (hg : IsGap g) : items depth fuel (cs ++ g) = .ok edits g := by
  induction h generalizing fuel with
  | nil =>
    cases fuel with
    | zero => rfl
    | succ fuel =>
      rw [List.nil_append, items, skipGap_eq_nil hg]
      rfl
  | @cons sign edit edits g₁ g₂ cs ds h₁ h₂ hi hs ih =>
    cases fuel with
    | zero => simp at hf
    | succ fuel =>
      obtain ⟨hgap, -, hsign⟩ := signMark_facts sign
      simp only [List.length_append, List.length_cons] at hd
      have hitem : item depth sign (cs ++ (ds ++ g)) = .ok edit (ds ++ g) :=
        item_of_writes hi (by omega) (stopsAt_items hs hg)
      have hrest := ih (by omega) (Nat.le_of_succ_le_succ hf)
      simp only [List.append_assoc, List.cons_append]
      rw [items, skipGap_append h₁, skipGap_cons hgap, hsign]
      simp only [skipGap_append h₂, skipGap_writesItem hi, hitem, hrest]

theorem length_le_of_writesItems (h : WritesItems edits cs) : edits.length ≤ cs.length := by
  obtain ⟨items, hlayout, rfl, -⟩ := exists_layout_of_writesItems h
  rw [List.length_map]
  exact length_le_of_itemsLayout hlayout

theorem exists_firstSign_of_writesRight (h : WritesRight edits cs) :
    ∃ sign ss edit is others ds, WritesFirstSign sign ss ∧ WritesItem sign edit is ∧
      WritesItems others ds ∧ edits = edit :: others ∧ cs = ss ++ (is ++ ds) := by
  cases h with
  | unsigned hi hs => exact ⟨_, _, _, _, _, _, .omitted, hi, hs, rfl, rfl⟩
  | signed hg hi hs => exact ⟨_, _, _, _, _, _, .given hg, hi, hs, rfl, rfl⟩

theorem firstItem_of_sign {ss : List Char} (h : WritesFirstSign sign ss)
    (hhead : ∃ c es, cs = c :: es ∧ IsItemHead c) :
    firstItem depth (skipGap (ss ++ (cs ++ rest))) =
      (cs ++ rest, item depth sign (cs ++ rest)) := by
  obtain ⟨c, es, rfl, hc⟩ := hhead
  rw [List.cons_append]
  cases h with
  | omitted => rw [List.nil_append, skipGap_cons hc.isGap, firstItem, hc.sign?]
  | @given _ g hg =>
    obtain ⟨hgap, -, hsign⟩ := signMark_facts sign
    rw [List.cons_append, skipGap_cons hgap, firstItem, hsign]
    simp only [skipGap_append hg, skipGap_cons hc.isGap]

theorem firstItem_of_writes (h : WritesRight edits cs) (hd : cs.length ≤ depth) (hg : IsGap g) :
    ∃ start edit others ds, edits = edit :: others ∧ WritesItems others ds ∧
      ds.length ≤ cs.length ∧
      firstItem depth (skipGap (cs ++ g)) = (start, .ok edit (ds ++ g)) := by
  obtain ⟨sign, ss, edit, is, others, ds, hsign, hi, hs, rfl, rfl⟩ :=
    exists_firstSign_of_writesRight h
  simp only [List.length_append, List.append_assoc] at hd ⊢
  have hitem : item depth sign (is ++ (ds ++ g)) = .ok edit (ds ++ g) :=
    item_of_writes hi (by omega) (stopsAt_items hs hg)
  refine ⟨is ++ (ds ++ g), edit, others, ds, rfl, hs, by omega, ?_⟩
  rw [firstItem_of_sign hsign (exists_head_of_writesItem hi), hitem]

theorem rightSide_of_writes (h : WritesRight edits ds) (hd : ds.length ≤ cs.length)
    (hg : IsGap g) {g' : List Char} (hg' : IsGap g') :
    rightSide cs (g ++ (ds ++ g')) = .ok edits := by
  obtain ⟨start, edit, others, es, rfl, hs, hle, hfirst⟩ := firstItem_of_writes h hd hg'
  have hfuel : others.length ≤ (es ++ g').length := by
    rw [List.length_append]
    exact Nat.le_add_right_of_le (length_le_of_writesItems hs)
  have hitems : items cs.length (es ++ g').length (es ++ g') = .ok others g' :=
    items_of_writes hs (Nat.le_trans hle hd) hfuel hg'
  rw [rightSide, skipGap_append hg, hfirst]
  simp only [hitems, skipGap_eq_nil hg']

theorem nested_tilde (depth : Nat) : nested depth ('~' :: rest) = .miss := by
  cases depth with
  | zero => rfl
  | succ depth => rfl

theorem script_of_tilde (h : skipGap cs = '~' :: rest) :
    script cs = (rightSide cs rest).map (none, ·) := by
  simp only [script, h, nested_tilde, tilde]

theorem script_of_response (h : nested cs.length (skipGap cs) = .ok term (g ++ '~' :: rest))
    (hg : IsGap g) : script cs = (rightSide cs rest).map (some term, ·) := by
  have htilde : skipGap (g ++ '~' :: rest) = '~' :: rest := by
    rw [skipGap_append hg, skipGap_cons (by decide)]
  simp only [script, h, htilde, tilde]

theorem script_of_left (hg : IsGap g) (hl : WritesLeft response cs) {text : List Char}
    (htext : text = g ++ (cs ++ '~' :: rest)) :
    script text = (rightSide text rest).map (response, ·) := by
  cases hl with
  | none =>
    have hskip : skipGap text = '~' :: rest := by
      rw [htext, skipGap_append hg, List.nil_append, skipGap_cons (by decide)]
    exact script_of_tilde hskip
  | @some term cs g' ht hp hg' =>
    have hskip : skipGap text = cs ++ (g' ++ '~' :: rest) := by
      rw [htext, skipGap_append hg, List.append_assoc, skipGap_writesTerm ht]
    have hstop : StopsAt termMarks (g' ++ '~' :: rest) :=
      (stopsAt_gap hg').mpr (stopsAt_cons (by decide) (by decide))
    have hlength : cs.length + 1 ≤ text.length := by
      simp only [htext, List.length_append, List.length_cons]
      omega
    obtain ⟨depth, hdepth⟩ : ∃ d, text.length = d + 1 := ⟨text.length - 1, by omega⟩
    have hread : nested text.length (skipGap text) = .ok term (g' ++ '~' :: rest) := by
      rw [hskip, hdepth]
      exact nested_of_termOf hp (termOf_of_writes ht (by omega) hstop)
    exact script_of_response hread hg'

/-- The text of a formula is read into its response and its edits. -/
theorem script_of_writes (h : WritesFormula response edits cs) :
    script cs = .ok (response, edits) := by
  cases h with
  | @mk g₁ g₂ g₃ cs ds h₁ hl h₂ hr h₃ =>
    have hright : rightSide (g₁ ++ (cs ++ '~' :: (g₂ ++ (ds ++ g₃)))) (g₂ ++ (ds ++ g₃)) =
        .ok edits := by
      refine rightSide_of_writes hr ?_ h₂ h₃
      simp only [List.length_append, List.length_cons]
      omega
    rw [script_of_left h₁ hl rfl, hright]
    rfl

end Items

end ModelFormula.Formula
