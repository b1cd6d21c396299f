import ModelFormula.Proofs.Unfinished

/-! # Divided chains

However a divided chain goes on, it is read to no response and to no argument. What is read instead
leaves an opening parenthesis behind, and the text around it is then no formula. So a text in which
a divided chain has begun cannot be completed.
-/

namespace ModelFormula.Formula

open Grammar

def Caught (cs : List Char) : Prop := ∃ ds, skipGap cs = '(' :: ds

/-- Reading has left a parenthesis unread, or fewer than `n` characters. -/
def Passes (n : Nat) (rest : List Char) : Prop := Caught rest ∨ rest.length < n

/-- Something is read and has the property, or a misplaced term is come upon. -/
def Outcome.Ends {α : Type} (P : α → List Char → Prop) : Outcome α → Prop
  | .ok value rest => P value rest
  | .miss => False
  | .misplaced _ => True

theorem Outcome.Ends.imp {α : Type} {P Q : α → List Char → Prop} {outcome : Outcome α}
    (h : outcome.Ends P)
    (hpq : ∀ value rest, outcome = .ok value rest → P value rest → Q value rest) :
    outcome.Ends Q := by
  cases outcome with
  | ok value rest => exact hpq value rest rfl h
  | miss => exact h
  | misplaced place => trivial

section Steps

variable {read : List Char → Outcome Term} {symbol cs ds rest : List Char} {n : Nat}
  {term first : Term} {g₁ g₂ : List Char}

theorem IsLink.isPrefixOf?_of_caught (hs : IsLink symbol) (h : Caught cs) :
    symbol.isPrefixOf? (skipGap cs) = none := by
  obtain ⟨ds, hds⟩ := h
  rw [hds]
  rcases hs with rfl | rfl <;> rfl

theorem Passes.of_length_le (h : Passes n cs) (hc : ¬ Caught cs)
    (hle : rest.length ≤ cs.length) : Passes n rest :=
  .inr (Nat.lt_of_le_of_lt hle (h.resolve_left hc))

theorem chain_ne_miss (fuel : Nat) : chain symbol read fuel cs ≠ .miss := by
  cases fuel with
  | zero => simp [chain]
  | succ fuel =>
    rw [chain]
    split
    · simp
    · split
      · split <;> simp
      · simp
      · simp

theorem operands_ne_miss : operands read first cs ≠ .miss := by
  unfold operands
  split
  · simp
  · simp
  · split <;> simp

/-- Nothing is linked to a factor before an unread parenthesis. -/
theorem chain_passes (hs : IsLink symbol) (hf : Sound read WritesFactor) (h : Passes n cs)
    (fuel : Nat) : (chain symbol read fuel cs).Ends fun _ rest => Passes n rest := by
  by_cases hc : Caught cs
  · rw [chain_nil _ (hs.isPrefixOf?_of_caught hc)]
    exact h
  · cases hchain : chain symbol read fuel cs with
    | miss => exact chain_ne_miss fuel hchain
    | misplaced place => trivial
    | ok terms rest =>
      obtain ⟨ds, rfl, -⟩ := sound_chain hf fuel hchain
      exact h.of_length_le hc (by simp)

theorem operands_passes (hf : Sound read WritesFactor) (h : Passes n cs)
    {fs : List Char} (hfirst : WritesFactor first fs) :
    (operands read first cs).Ends fun _ rest => Passes n rest := by
  by_cases hc : Caught cs
  · rw [operands_nil fun _ hs => hs.isPrefixOf?_of_caught hc]
    exact h
  · cases hread : operands read first cs with
    | miss => exact operands_ne_miss hread
    | misplaced place => trivial
    | ok term rest =>
      obtain ⟨ds, rfl, -⟩ := exists_written_operands hf hfirst hread
      exact h.of_length_le hc (by simp)

theorem length_lt_of_argument {inside : List Char} (h₁ : IsGap g₁)
    (h : ∀ arg rest, read (skipGap inside) = .ok arg rest → Passes n rest) {arg : Term}
    (ha : argument read (g₁ ++ '(' :: inside) = .ok arg rest) : rest.length < n := by
  have hopen : skipGap (g₁ ++ '(' :: inside) = '(' :: inside := by
    rw [skipGap_append h₁, skipGap_cons (by decide)]
  simp only [argument, hopen] at ha
  split at ha
  · next arg' after hread =>
    obtain ⟨g, hg, hafter⟩ := exists_gap after
    split at ha
    · next rest' hclose =>
      obtain ⟨rfl, rfl⟩ := Outcome.ok.inj ha
      rcases h _ _ hread with ⟨ds, hds⟩ | hlt
      · rw [hds] at hclose
        cases hclose
      · rw [hafter, hclose] at hlt
        simp only [List.length_append, List.length_cons] at hlt
        omega
    · cases ha
  · cases ha
  · cases ha

/-- A factor is read past its argument, or its parenthesis is left unread. -/
theorem factor_passes {name : String} {inside : List Char} (hn : WritesName name cs)
    (h₁ : IsGap g₁) (h : ∀ arg rest, read (skipGap inside) = .ok arg rest → Passes n rest) :
    (factor read (cs ++ (g₁ ++ '(' :: inside))).Ends fun _ rest => Passes n rest := by
  have hname : name? (cs ++ (g₁ ++ '(' :: inside)) = some (name, g₁ ++ '(' :: inside) :=
    name?_of_writesName hn (nameEnds_gap h₁ (by decide))
  simp only [factor, hname]
  cases ha : argument read (g₁ ++ '(' :: inside) with
  | ok arg rest => exact .inr (length_lt_of_argument h₁ h ha)
  | miss => exact .inl ⟨inside, by rw [skipGap_append h₁, skipGap_cons (by decide)]⟩
  | misplaced place => trivial

theorem chain_step {fuel : Nat} (hs : IsLink symbol) (h₁ : IsGap g₁) (h₂ : IsGap g₂)
    (hhead : skipGap cs = cs) (h : (read cs).Ends fun _ rest =>
      (chain symbol read fuel rest).Ends fun _ rest => Passes n rest) :
    (chain symbol read (fuel + 1) (g₁ ++ (symbol ++ (g₂ ++ cs)))).Ends fun terms rest =>
      terms ≠ [] ∧ Passes n rest := by
  rw [chain, skipGap_append h₁, hs.skipGap_append, hs.isPrefixOf?]
  simp only [skipGap_append h₂, hhead]
  cases hread : read cs with
  | miss => simp [hread, Outcome.Ends] at h
  | misplaced place => trivial
  | ok term rest =>
    simp only [hread, Outcome.Ends] at h
    cases hchain : chain symbol read fuel rest with
    | miss => exact absurd hchain (chain_ne_miss fuel)
    | misplaced place => simp only [hchain, Outcome.Ends]
    | ok terms rest' =>
      simp only [hchain] at h ⊢
      exact ⟨List.cons_ne_nil _ _, h⟩

theorem operands_of_chain {P : Term → List Char → Prop} (link : Link)
    (hlink : link = .crossing → [':', ':'].isPrefixOf? (skipGap cs) = none)
    (h : (chain link.symbol read cs.length cs).Ends fun terms rest =>
      terms ≠ [] ∧ P (link.join (first :: terms)) rest) :
    (operands read first cs).Ends P := by
  cases hchain : chain link.symbol read cs.length cs with
  | miss => exact absurd hchain (chain_ne_miss _)
  | misplaced place =>
    cases link with
    | interaction =>
      rw [Link.symbol] at hchain
      simp only [operands, hchain, Outcome.Ends]
    | crossing =>
      rw [Link.symbol] at hchain
      rw [operands, chain_nil _ (hlink rfl)]
      simp only [hchain, Outcome.Ends]
  | ok terms rest =>
    rw [hchain] at h
    obtain ⟨hne, hjoin⟩ := h
    cases link with
    | interaction =>
      rw [operands_interaction hne hchain]
      exact hjoin
    | crossing =>
      rw [operands_crossing hne (chain_nil _ (hlink rfl)) hchain]
      exact hjoin

theorem of_nested {P : Term → List Char → Prop} {depth : Nat}
    (h : (termOf (factor (nested depth)) cs).Ends P)
    (hread : nested (depth + 1) cs = .ok term rest) : P term rest ∧ term.isPlaceholder = false := by
  rw [nested] at hread
  cases hterm : termOf (factor (nested depth)) cs with
  | miss => simp [hterm, Outcome.placed] at hread
  | misplaced place => simp [hterm, Outcome.placed] at hread
  | ok term' rest' =>
    rw [hterm] at h hread
    rw [Outcome.placed] at hread
    split at hread
    · cases hread
    · next hp =>
      obtain ⟨rfl, rfl⟩ := Outcome.ok.inj hread
      exact ⟨h, Bool.eq_false_iff.mpr hp⟩

end Steps

/-! ## Open texts -/

section Open

variable {cs ds rest symbol : List Char} {n : Nat}

theorem exists_head_of_opensFactor (h : OpensFactor cs) : ∃ c ds, cs = c :: ds ∧ IsNameHead c := by
  cases h with
  | here hn | inside hn =>
    obtain ⟨c, ds, rfl, hc⟩ := exists_head_of_writesName hn
    exact ⟨c, _, rfl, hc⟩

theorem exists_head_of_opensTerm (h : OpensTerm cs) : ∃ c ds, cs = c :: ds ∧ IsNameHead c := by
  cases h with
  | first hf => exact exists_head_of_opensFactor hf
  | links hw =>
    obtain ⟨c, ds, rfl, hc⟩ := exists_head_of_writesFactor hw
    exact ⟨c, _, rfl, hc⟩

theorem skipGap_of_head (h : ∃ c ds, cs = c :: ds ∧ IsNameHead c) :
    skipGap (cs ++ rest) = cs ++ rest := by
  obtain ⟨c, ds, rfl, hc⟩ := h
  exact skipGap_cons hc.isGap

theorem exists_symbol_of_opensLinks (h : OpensLinks symbol cs) :
    ∃ g ds, IsGap g ∧ cs = g ++ (symbol ++ ds) := by
  cases h with
  | last h₁ => exact ⟨_, _, h₁, rfl⟩
  | cons h₁ => exact ⟨_, _, h₁, rfl⟩

theorem length_pos_of_opensLinks (h : OpensLinks symbol cs) (hs : IsLink symbol) :
    0 < cs.length := by
  obtain ⟨g, ds, -, rfl⟩ := exists_symbol_of_opensLinks h
  simp only [List.length_append, hs.length_eq]
  omega

theorem stopsAt_of_opensLinks (h : OpensLinks symbol cs) (hs : IsLink symbol) :
    StopsAt factorMarks (cs ++ rest) := by
  obtain ⟨g, ds, hg, rfl⟩ := exists_symbol_of_opensLinks h
  rw [List.append_assoc, List.append_assoc]
  exact (stopsAt_gap hg).mpr hs.stopsAt

theorem isPrefixOf?_of_opensLinks (h : OpensLinks ['&', '&'] cs) :
    [':', ':'].isPrefixOf? (skipGap (cs ++ rest)) = none := by
  obtain ⟨g, ds, hg, rfl⟩ := exists_symbol_of_opensLinks h
  rw [List.append_assoc, skipGap_append hg]
  rfl

/-- What is read where a response or an argument has to come passes. -/
def Passable (n : Nat) (cs : List Char) : Prop :=
  ∀ depth term rest, cs.length ≤ depth → nested depth (skipGap cs) = .ok term rest → Passes n rest

-- The induction is on the place that the text leaves open: an unread parenthesis is left unread by
-- all that is around it, and what is read further is read to the end of all that is around it.
mutual

theorem factor_of_opens : ∀ {cs rest : List Char} {depth n : Nat}, OpensFactor cs →
    Passable n rest → (cs ++ rest).length ≤ depth + 1 →
    (factor (nested depth) (cs ++ rest)).Ends fun _ after => Passes n after
  | _, rest, depth, n, @OpensFactor.here name cs g₁ g₂ hn h₁ h₂, hp, hd => by
    simp only [List.append_assoc, List.cons_append, List.length_append, List.length_cons] at hd ⊢
    refine factor_passes hn h₁ fun arg after hread => hp depth arg after (by omega) ?_
    rwa [skipGap_append h₂] at hread
  | _, rest, depth, n, @OpensFactor.inside name cs g₁ g₂ ds hn h₁ h₂ ht, hp, hd => by
    have hds : 0 < ds.length := by
      obtain ⟨c, es, rfl, -⟩ := exists_head_of_opensTerm ht
      simp
    simp only [List.append_assoc, List.cons_append, List.length_append, List.length_cons] at hd ⊢
    obtain ⟨depth, rfl⟩ : ∃ d, depth = d + 1 := ⟨depth - 1, by omega⟩
    have hterm : (termOf (factor (nested depth)) (ds ++ rest)).Ends fun _ after => Passes n after :=
      termOf_of_opens ht hp (by rw [List.length_append]; omega)
    refine factor_passes hn h₁ fun arg after hread => ?_
    rw [skipGap_append h₂, skipGap_of_head (exists_head_of_opensTerm ht)] at hread
    exact (of_nested hterm hread).1

theorem chain_of_opens : ∀ {symbol cs rest : List Char} {depth fuel n : Nat},
    OpensLinks symbol cs → IsLink symbol → Passable n rest → (cs ++ rest).length ≤ depth + 1 →
    cs.length ≤ fuel →
    (chain symbol (factor (nested depth)) fuel (cs ++ rest)).Ends fun terms after =>
      terms ≠ [] ∧ Passes n after
  | symbol, _, rest, depth, fuel, n, @OpensLinks.last _ g₁ g₂ cs h₁ h₂ hf, hs, hp, hd, hfuel => by
    simp only [List.append_assoc, List.length_append, hs.length_eq] at hd hfuel ⊢
    obtain ⟨fuel, rfl⟩ : ∃ k, fuel = k + 1 := ⟨fuel - 1, by omega⟩
    have hread : (factor (nested depth) (cs ++ rest)).Ends fun _ after => Passes n after :=
      factor_of_opens hf hp (by rw [List.length_append]; omega)
    have hhead : skipGap (cs ++ rest) = cs ++ rest :=
      skipGap_of_head (exists_head_of_opensFactor hf)
    exact chain_step hs h₁ h₂ hhead (hread.imp fun _ _ _ hpass =>
      chain_passes hs (sound_factor (sound_nested depth)) hpass fuel)
  | symbol, _, rest, depth, fuel, n, @OpensLinks.cons _ term g₁ g₂ cs ds h₁ h₂ hw hl, hs, hp, hd,
      hfuel => by
    simp only [List.append_assoc, List.length_append, hs.length_eq] at hd hfuel ⊢
    obtain ⟨fuel, rfl⟩ : ∃ k, fuel = k + 1 := ⟨fuel - 1, by omega⟩
    have hread : factor (nested depth) (cs ++ (ds ++ rest)) = .ok term (ds ++ rest) :=
      factor_of_writes hw (by omega) (stopsAt_of_opensLinks hl hs)
    have htail : (chain symbol (factor (nested depth)) fuel (ds ++ rest)).Ends
        fun terms after => terms ≠ [] ∧ Passes n after :=
      chain_of_opens hl hs hp (by rw [List.length_append]; omega) (by omega)
    refine chain_step hs h₁ h₂ (skipGap_writesFactor hw) ?_
    rw [hread]
    exact htail.imp fun _ _ _ h => h.2

theorem termOf_of_opens : ∀ {cs rest : List Char} {depth n : Nat}, OpensTerm cs →
    Passable n rest → (cs ++ rest).length ≤ depth + 1 →
    (termOf (factor (nested depth)) (cs ++ rest)).Ends fun _ after => Passes n after
  | cs, rest, depth, n, .first hf, hp, hd => by
    have hread := factor_of_opens hf hp hd
    obtain ⟨c, ds, rfl, hc⟩ := exists_head_of_opensFactor hf
    rw [List.cons_append] at hread ⊢
    rw [termOf_head hc]
    cases hfactor : factor (nested depth) (c :: (ds ++ rest)) with
    | miss => simp [hfactor, Outcome.Ends] at hread
    | misplaced place => trivial
    | ok first after =>
      have hsound := sound_factor (sound_nested depth)
      obtain ⟨fs, -, hfirst⟩ := hsound hfactor
      rw [hfactor] at hread
      exact operands_passes hsound hread hfirst
  | _, rest, depth, n, @OpensTerm.links link first cs ds hw hl, hp, hd => by
    simp only [List.append_assoc, List.length_append] at hd
    have hlink := isLink_symbol link
    have hds := length_pos_of_opensLinks hl hlink
    have hread : factor (nested depth) (cs ++ (ds ++ rest)) = .ok first (ds ++ rest) :=
      factor_of_writes hw (by omega) (stopsAt_of_opensLinks hl hlink)
    rw [List.append_assoc, termOf_factor hw hread]
    refine operands_of_chain link ?_
      (chain_of_opens hl hlink hp (by rw [List.length_append]; omega) (by simp))
    rintro rfl
    exact isPrefixOf?_of_opensLinks hl

end

theorem passable_length (cs : List Char) : Passable (cs.length + 1) cs := by
  intro depth term rest _ hread
  obtain ⟨ds, hds, -⟩ := sound_nested depth hread
  obtain ⟨g, -, hcs⟩ := exists_gap cs
  refine .inr (Nat.lt_succ_of_le ?_)
  rw [hcs, hds, List.length_append, List.length_append]
  omega

/-- A crossing that is no placeholder repeats its first factor. -/
theorem eq_replicate_of_crossingOf {first : Term} {terms : List Term}
    (hfirst : first.isPlaceholder = false)
    (h : (Term.crossingOf (first :: terms)).isPlaceholder = false) :
    terms = List.replicate terms.length first :=
  List.eq_replicate_iff.mpr ⟨rfl, (isPlaceholder_crossingOf hfirst).mp h⟩

/-- What is linked to the first factor of a divided chain makes it a crossing, unless the
parenthesis of the last factor is left unread. -/
theorem caught_of_links {first : Term} {terms : List Term} {after : List Char}
    (hfirst : first.isPlaceholder = false)
    (hdivided : ∀ count rest, ¬ WritesLinks ['&', '&'] (List.replicate count first) (ds ++ rest))
    (hl : WritesLinks ['&', '&'] terms cs) (htext : ds ++ rest = cs ++ after)
    (hpass : Passes (rest.length + 1) after)
    (hp : (Term.crossingOf (first :: terms)).isPlaceholder = false) : Caught after := by
  refine hpass.resolve_right fun hlt => ?_
  obtain ⟨more, rfl⟩ : ∃ more, cs = ds ++ more := by
    rcases List.append_eq_append_iff.mp htext with ⟨more, hcs, -⟩ | ⟨more, hds, hafter⟩
    · exact ⟨more, hcs⟩
    · rw [hafter, List.length_append] at hlt
      obtain rfl : more = [] := List.eq_nil_of_length_eq_zero (by omega)
      exact ⟨[], by rw [hds, List.append_assoc, List.append_nil, List.append_nil]⟩
  rw [eq_replicate_of_crossingOf hfirst hp] at hl
  exact hdivided _ _ hl

theorem passable_of_divided (h : Divided cs) (rest : List Char) : Passable 0 (cs ++ rest) := by
  obtain ⟨first, fs, ds, rfl, hw, hl, hdivided⟩ := h
  intro depth term after hd hread
  obtain ⟨depth, rfl⟩ : ∃ d, depth = d + 1 := by
    cases depth with
    | zero => cases hread
    | succ d => exact ⟨d, rfl⟩
  have hcross : IsLink ['&', '&'] := Or.inr rfl
  have hds := length_pos_of_opensLinks hl hcross
  simp only [List.length_append] at hd
  have hfactor : factor (nested depth) (fs ++ (ds ++ rest)) = .ok first (ds ++ rest) :=
    factor_of_writes hw (by omega) (stopsAt_of_opensLinks hl hcross)
  -- Whatever comes behind the open place, the links are read to this place at least.
  have hchain : (chain ['&', '&'] (factor (nested depth)) (ds ++ rest).length (ds ++ rest)).Ends
      fun terms after => terms ≠ [] ∧ Passes (rest.length + 1) after :=
    chain_of_opens hl hcross (passable_length rest) (by rw [List.length_append]; omega) (by simp)
  have hends : (termOf (factor (nested depth)) (fs ++ (ds ++ rest))).Ends
      fun term after => term.isPlaceholder = false → Caught after := by
    rw [termOf_factor hw hfactor]
    refine operands_of_chain .crossing (fun _ => isPrefixOf?_of_opensLinks hl)
      (hchain.imp fun terms after hlinks h => ⟨h.1, fun hp => ?_⟩)
    obtain ⟨ls, htext, hls⟩ := sound_chain (sound_factor (sound_nested depth)) _ hlinks
    exact caught_of_links hw.nested.2 hdivided hls htext h.2 hp
  rw [List.append_assoc, skipGap_writesFactor hw] at hread
  obtain ⟨hcaught, hp⟩ := of_nested hends hread
  exact .inl (hcaught hp)

end Open

/-! ## Items and formulas -/

section Formulas

variable {cs ds ss rest text g : List Char} {sign : Sign} {depth : Nat}

theorem caught_of_passes (h : Passes 0 cs) : Caught cs := h.resolve_right (Nat.not_lt_zero _)

theorem sign?_of_caught (h : Caught cs) : sign? (skipGap cs) = none := by
  obtain ⟨ds, hds⟩ := h
  rw [hds]
  rfl

theorem item_of_opens (h : OpensTerm cs) (hp : Passable 0 rest) (hd : (cs ++ rest).length ≤ depth) :
    (item depth sign (cs ++ rest)).Ends fun _ after => Caught after := by
  have hterm := termOf_of_opens h hp (Nat.le_succ_of_le hd)
  obtain ⟨c, ds, rfl, hc⟩ := exists_head_of_opensTerm h
  rw [List.cons_append] at hterm ⊢
  rw [item_of_head (.inr hc)]
  cases hread : termOf (factor (nested depth)) (c :: (ds ++ rest)) with
  | miss => simp [hread, Outcome.Ends] at hterm
  | misplaced place => trivial
  | ok term after =>
    rw [hread] at hterm
    exact caught_of_passes hterm

theorem exists_sign_of_opensItems (h : OpensItems cs) :
    ∃ g sign ds, IsGap g ∧ cs = g ++ signMark sign :: ds := by
  cases h with
  | last h₁ => exact ⟨_, _, _, h₁, rfl⟩
  | cons h₁ => exact ⟨_, _, _, h₁, rfl⟩

theorem stopsAt_of_opensItems (h : OpensItems cs) : StopsAt termMarks (cs ++ rest) := by
  obtain ⟨g, sign, ds, hg, rfl⟩ := exists_sign_of_opensItems h
  obtain ⟨hgap, hmark, -⟩ := signMark_facts sign
  rw [List.append_assoc]
  exact (stopsAt_gap hg).mpr (stopsAt_cons hmark hgap)

theorem items_ne_miss (fuel : Nat) : items depth fuel cs ≠ .miss := by
  cases fuel with
  | zero => simp [items]
  | succ fuel =>
    rw [items]
    split
    · simp
    · split
      · split <;> simp
      · simp
      · simp

theorem items_of_caught (h : Caught cs) (fuel : Nat) : items depth fuel cs = .ok [] cs := by
  cases fuel with
  | zero => rfl
  | succ fuel => rw [items, sign?_of_caught h]

theorem items_step {fuel : Nat} {g₁ g₂ : List Char} (h₁ : IsGap g₁) (h₂ : IsGap g₂)
    (hhead : skipGap cs = cs) (h : (item depth sign cs).Ends fun _ rest =>
      (items depth fuel rest).Ends fun _ after => Caught after) :
    (items depth (fuel + 1) (g₁ ++ signMark sign :: (g₂ ++ cs))).Ends fun _ after =>
      Caught after := by
  obtain ⟨hgap, -, hsign⟩ := signMark_facts sign
  rw [items, skipGap_append h₁, skipGap_cons hgap, hsign]
  simp only [skipGap_append h₂, hhead]
  cases hitem : item depth sign cs with
  | miss => simp [hitem, Outcome.Ends] at h
  | misplaced place => trivial
  | ok edit rest =>
    simp only [hitem, Outcome.Ends] at h
    cases hitems : items depth fuel rest with
    | miss => exact absurd hitems (items_ne_miss fuel)
    | misplaced place => simp only [hitems, Outcome.Ends]
    | ok edits after =>
      simp only [hitems] at h ⊢
      exact h

theorem items_of_opens (h : OpensItems cs) (hp : Passable 0 rest)
    (hd : (cs ++ rest).length ≤ depth) {fuel : Nat} (hf : cs.length ≤ fuel) :
    (items depth fuel (cs ++ rest)).Ends fun _ after => Caught after := by
  induction h generalizing fuel with
  | @last sign g₁ g₂ cs h₁ h₂ ht =>
    simp only [List.append_assoc, List.cons_append, List.length_append, List.length_cons] at hd hf ⊢
    obtain ⟨fuel, rfl⟩ : ∃ k, fuel = k + 1 := ⟨fuel - 1, by omega⟩
    have hitem : (item depth sign (cs ++ rest)).Ends fun _ after => Caught after :=
      item_of_opens ht hp (by rw [List.length_append]; omega)
    refine items_step h₁ h₂ (skipGap_of_head (exists_head_of_opensTerm ht)) ?_
    refine hitem.imp fun _ after _ hcaught => ?_
    rw [items_of_caught hcaught]
    exact hcaught
  | @cons sign edit g₁ g₂ cs ds h₁ h₂ hi hs ih =>
    simp only [List.append_assoc, List.cons_append, List.length_append, List.length_cons] at hd hf ⊢
    obtain ⟨fuel, rfl⟩ : ∃ k, fuel = k + 1 := ⟨fuel - 1, by omega⟩
    have hitem : item depth sign (cs ++ (ds ++ rest)) = .ok edit (ds ++ rest) :=
      item_of_writes hi (by omega) (stopsAt_of_opensItems hs)
    refine items_step h₁ h₂ (skipGap_writesItem hi) ?_
    rw [hitem]
    exact ih (by rw [List.length_append]; omega) (by omega)

theorem rightSide_ne_ok {edits : List Edit} (hg : IsGap g) (hsign : WritesFirstSign sign ss)
    (hhead : ∃ c es, cs = c :: es ∧ IsItemHead c)
    (h : (item text.length sign (cs ++ ds)).Ends fun _ rest =>
      (items text.length rest.length rest).Ends fun _ after => Caught after) :
    rightSide text (g ++ (ss ++ (cs ++ ds))) ≠ .ok edits := by
  rw [rightSide, skipGap_append hg, firstItem_of_sign hsign hhead]
  cases hitem : item text.length sign (cs ++ ds) with
  | miss => simp
  | misplaced place => simp
  | ok edit rest =>
    simp only [hitem, Outcome.Ends] at h
    cases hitems : items text.length rest.length rest with
    | miss => simp [hitems]
    | misplaced place => simp [hitems]
    | ok edits after =>
      rw [hitems] at h
      obtain ⟨ds, hds⟩ := h
      simp [hitems, hds]

theorem rightSide_of_opens (h : OpensRight ds) (hp : Passable 0 rest) (hg : IsGap g)
    (hd : (ds ++ rest).length ≤ text.length) {edits : List Edit} :
    rightSide text (g ++ (ds ++ rest)) ≠ .ok edits := by
  cases h with
  | @first sign ss cs hsign ht =>
    rw [List.append_assoc] at hd ⊢
    rw [List.length_append] at hd
    obtain ⟨c, es, hcs, hc⟩ := exists_head_of_opensTerm ht
    have hitem : (item text.length sign (cs ++ rest)).Ends fun _ after => Caught after :=
      item_of_opens ht hp (by omega)
    refine rightSide_ne_ok hg hsign ⟨c, es, hcs, .inr hc⟩ (hitem.imp fun _ after _ hcaught => ?_)
    rw [items_of_caught hcaught]
    exact hcaught
  | @items sign edit ss cs ds hsign hi hs =>
    simp only [List.append_assoc, List.length_append] at hd ⊢
    have hitem : item text.length sign (cs ++ (ds ++ rest)) = .ok edit (ds ++ rest) :=
      item_of_writes hi (by omega) (stopsAt_of_opensItems hs)
    refine rightSide_ne_ok hg hsign (exists_head_of_writesItem hi) ?_
    rw [hitem]
    exact items_of_opens hs hp (by rw [List.length_append]; omega) (by simp)

theorem tilde_ne_ok (h : ∀ ds, cs ≠ '~' :: ds) {edits : List Edit} : tilde text cs ≠ .ok edits := by
  unfold tilde
  split
  · next ds => exact absurd rfl (h ds)
  · simp

theorem script_ne_ok {value : Option Term × List Edit}
    (h : ∀ term after, nested cs.length (skipGap cs) = .ok term after → Caught after)
    (htilde : ∀ ds, skipGap cs ≠ '~' :: ds) : script cs ≠ .ok value := by
  intro hscript
  unfold script at hscript
  split at hscript
  · next term after hread =>
    obtain ⟨ds, hds⟩ := h _ _ hread
    obtain ⟨edits, hedits, -⟩ := map_eq_ok_iff.mp hscript
    refine tilde_ne_ok (fun es => ?_) hedits
    simp [hds]
  · obtain ⟨edits, hedits, -⟩ := map_eq_ok_iff.mp hscript
    exact tilde_ne_ok htilde hedits
  · cases hscript

theorem script_of_opens (h : OpensFormula cs) (hp : Passable 0 rest)
    (htilde : ∀ ds, skipGap rest ≠ '~' :: ds) {value : Option Term × List Edit} :
    script (cs ++ rest) ≠ .ok value := by
  cases h with
  | here hg =>
    have hskip : skipGap (cs ++ rest) = skipGap rest := skipGap_append hg
    refine script_ne_ok (fun term after hread => ?_) (by rwa [hskip])
    rw [hskip] at hread
    exact caught_of_passes (hp _ term after (by simp) hread)
  | @response g cs hg ht =>
    have hskip : skipGap (g ++ cs ++ rest) = cs ++ rest := by
      rw [List.append_assoc, skipGap_append hg, skipGap_of_head (exists_head_of_opensTerm ht)]
    obtain ⟨c, ds, hcs, hc⟩ := exists_head_of_opensTerm ht
    refine script_ne_ok (fun term after hread => ?_) (fun es => ?_)
    · obtain ⟨depth, hdepth⟩ : ∃ d, (g ++ cs ++ rest).length = d + 1 :=
        ⟨(g ++ cs ++ rest).length - 1, by simp [hcs]; omega⟩
      have hlength : (cs ++ rest).length ≤ depth + 1 := by
        simp only [List.length_append] at hdepth ⊢
        omega
      rw [hskip, hdepth] at hread
      exact caught_of_passes (of_nested (termOf_of_opens ht hp hlength) hread).1
    · rw [hskip, hcs, List.cons_append]
      intro heq
      exact hc.ne (by decide) (by decide) (List.cons.inj heq).1
  | @right response g₁ g₂ cs ds h₁ hl h₂ hr =>
    intro hscript
    have htext : g₁ ++ (cs ++ '~' :: (g₂ ++ ds)) ++ rest =
        g₁ ++ (cs ++ '~' :: (g₂ ++ (ds ++ rest))) := by simp
    rw [script_of_left h₁ hl htext] at hscript
    obtain ⟨edits, hedits, -⟩ := map_eq_ok_iff.mp hscript
    refine rightSide_of_opens hr hp h₂ ?_ hedits
    simp only [htext, List.length_append, List.length_cons]
    omega

/-- Where a divided chain has begun, no text goes on to be a formula. -/
theorem not_completable_of_opensDivided (h : OpensDivided OpensFormula cs) : ¬ Completable cs := by
  obtain ⟨outer, inner, rfl, houter, hinner⟩ := h
  rintro ⟨rest, response, edits, hw⟩
  have hscript := script_of_writes hw
  rw [List.append_assoc] at hscript
  refine script_of_opens houter (passable_of_divided hinner rest) (fun ds => ?_) hscript
  obtain ⟨first, fs, es, rfl, hfirst, -⟩ := hinner
  obtain ⟨c, cs, rfl, hc⟩ := exists_head_of_writesFactor hfirst
  simp only [List.cons_append]
  rw [skipGap_cons hc.isGap]
  intro heq
  exact hc.ne (by decide) (by decide) (List.cons.inj heq).1

end Formulas

end ModelFormula.Formula
