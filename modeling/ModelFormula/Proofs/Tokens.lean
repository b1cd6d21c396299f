import ModelFormula.Proofs.Grammar

/-! # Tokens

Gaps, names and literals are read as far as they go. What may follow a name or a term is described
by the mark that comes after the next gap, so that a longer name, an argument or another link is
excluded. Links, items and signs are told by the characters that they begin with.
-/

namespace ModelFormula

theorem isNamePart_of_isNameStart {c : Char} (h : isNameStart c = true) : isNamePart c = true := by
  simp only [isNameStart, isNamePart, Char.isAlphanum, Bool.or_eq_true] at h ⊢
  rcases h with h | h
  · exact Or.inl (Or.inl (Or.inl h))
  · exact Or.inl (Or.inr h)

namespace Formula

variable {c : Char} {cs ds g : List Char} {name : String}

theorem isGap_iff : isGap c = true ↔ c ∈ [' ', '\t', '\r', '\n'] := by
  simp [isGap, or_assoc]

theorem isGap_eq_false_of_isNamePart (h : isNamePart c = true) : isGap c = false := by
  rw [Bool.eq_false_iff, Ne, isGap_iff]
  intro hc
  simp only [List.mem_cons, List.not_mem_nil, or_false] at hc
  rcases hc with rfl | rfl | rfl | rfl <;> exact absurd h (by decide)

theorem skipGap_append (hg : Grammar.IsGap g) : skipGap (g ++ cs) = skipGap cs :=
  List.dropWhile_append_of_pos fun c hc => isGap_iff.mpr (hg c hc)

theorem skipGap_cons (h : isGap c = false) : skipGap (c :: cs) = c :: cs :=
  List.dropWhile_cons_of_neg (by simp [h])

theorem exists_gap (cs : List Char) : ∃ g, Grammar.IsGap g ∧ cs = g ++ skipGap cs :=
  ⟨cs.takeWhile isGap, fun c hc => isGap_iff.mp (List.all_eq_true.mp List.all_takeWhile c hc),
    List.takeWhile_append_dropWhile.symm⟩

def NameEnds (cs : List Char) : Prop := ∀ c ∈ cs.head?, isNamePart c = false

/-- After a gap, the text is over or one of the marks comes. -/
def StopsAt (marks cs : List Char) : Prop := ∀ c ∈ (skipGap cs).head?, c ∈ marks

/-- What may come after an item, a response or an argument. -/
def termMarks : List Char := [')', '+', '-', '~']

def factorMarks : List Char := ':' :: '&' :: termMarks

theorem StopsAt.factor (h : StopsAt termMarks cs) : StopsAt factorMarks cs :=
  fun c hc => List.mem_cons_of_mem _ (List.mem_cons_of_mem _ (h c hc))

theorem StopsAt.nil (marks : List Char) : StopsAt marks [] := by
  intro c hc
  cases hc

theorem stopsAt_gap {marks : List Char} (hg : Grammar.IsGap g) :
    StopsAt marks (g ++ cs) ↔ StopsAt marks cs := by
  rw [StopsAt, StopsAt, skipGap_append hg]

theorem stopsAt_cons {marks : List Char} (hc : c ∈ marks) (hg : isGap c = false) :
    StopsAt marks (c :: cs) := by
  intro d hd
  rw [skipGap_cons hg, List.head?_cons, Option.mem_some_iff] at hd
  exact hd ▸ hc

theorem StopsAt.nameEnds (h : StopsAt factorMarks cs) : NameEnds cs := by
  intro c hc
  cases cs with
  | nil => cases hc
  | cons d cs =>
    obtain rfl : d = c := by simpa using hc
    cases hg : isGap d with
    | true =>
      rw [Bool.eq_false_iff]
      intro hn
      rw [isGap_eq_false_of_isNamePart hn] at hg
      cases hg
    | false =>
      have hm : d ∈ factorMarks := h d (by rw [skipGap_cons hg]; rfl)
      simp only [factorMarks, termMarks, List.mem_cons, List.not_mem_nil, or_false] at hm
      rcases hm with rfl | rfl | rfl | rfl | rfl | rfl <;> decide

theorem nameEnds_gap (hg : Grammar.IsGap g) (hc : isNamePart c = false) :
    NameEnds (g ++ c :: cs) := by
  intro d hd
  cases g with
  | nil =>
    obtain rfl : c = d := by simpa using hd
    exact hc
  | cons e g =>
    obtain rfl : e = d := by simpa using hd
    rw [Bool.eq_false_iff]
    intro hn
    have := isGap_eq_false_of_isNamePart hn
    rw [isGap_iff.mpr (hg e List.mem_cons_self)] at this
    cases this

theorem StopsAt.mem_of_skipGap {marks : List Char} (h : StopsAt marks cs)
    (hs : skipGap cs = c :: ds) : c ∈ marks :=
  h c (by rw [hs]; rfl)

/-! ## Names and literals -/

theorem name?_plain (h : IsPlain name) (hr : NameEnds cs) :
    name? (name.toList ++ cs) = some (name, cs) := by
  unfold IsPlain at h
  obtain ⟨c, ds, hn⟩ : ∃ c ds, name.toList = c :: ds := by
    cases hn : name.toList with
    | nil => simp [hn, isPlainName] at h
    | cons c ds => exact ⟨c, ds, rfl⟩
  simp only [hn, isPlainName, Bool.and_eq_true, List.all_eq_true] at h
  have hq : c ≠ quoteMark := by
    rintro rfl
    exact absurd h.1 (by decide)
  have htake : (ds ++ cs).takeWhile isNamePart = ds := by
    rw [List.takeWhile_append_of_pos h.2]
    cases cs with
    | nil => simp
    | cons d cs => simp [hr d rfl]
  have hdrop : (ds ++ cs).dropWhile isNamePart = cs := by
    rw [List.dropWhile_append_of_pos h.2]
    cases cs with
    | nil => simp
    | cons d cs => simp [hr d rfl]
  rw [hn, List.cons_append, name?, if_neg hq, if_pos h.1, htake, hdrop, ← hn, String.ofList_toList]

theorem name?_quoted (h : IsName name) :
    name? (quoteMark :: (name.toList ++ quoteMark :: cs)) = some (name, cs) := by
  have hpos : ∀ c ∈ name.toList, (c != quoteMark) = true := fun c hc => by
    simpa using fun e : c = quoteMark => h.2 (e ▸ hc)
  have htake : (name.toList ++ quoteMark :: cs).takeWhile (· != quoteMark) = name.toList := by
    rw [List.takeWhile_append_of_pos hpos]
    simp
  have hdrop : (name.toList ++ quoteMark :: cs).dropWhile (· != quoteMark) = quoteMark :: cs := by
    rw [List.dropWhile_append_of_pos hpos]
    simp
  rw [name?, if_pos rfl, quotedRest?, htake, hdrop]
  cases hn : name.toList with
  | nil => exact absurd (by simpa using hn) h.1
  | cons c ds =>
    change some (String.ofList (c :: ds), cs) = some (name, cs)
    rw [← hn, String.ofList_toList]

/-- A written name is read back when no character of a name comes after it. -/
theorem name?_of_writesName (h : Grammar.WritesName name cs) (hr : NameEnds ds) :
    name? (cs ++ ds) = some (name, ds) := by
  cases h with
  | plain h => exact name?_plain h hr
  | quoted h => simpa using name?_quoted h

theorem writesName_of_quotedRest? (h : quotedRest? cs = some (name, ds)) :
    ∃ ns, quoteMark :: cs = ns ++ ds ∧ Grammar.WritesName name ns := by
  have hall : ∀ d ∈ cs.takeWhile (· != quoteMark), (d != quoteMark) = true :=
    List.all_eq_true.mp List.all_takeWhile
  have hhead := List.head?_dropWhile_not (· != quoteMark) cs
  have hcs : cs.takeWhile (· != quoteMark) ++ cs.dropWhile (· != quoteMark) = cs :=
    List.takeWhile_append_dropWhile
  unfold quotedRest? at h
  cases htake : cs.takeWhile (· != quoteMark) with
  | nil => simp [htake] at h
  | cons n ns =>
    cases hdrop : cs.dropWhile (· != quoteMark) with
    | nil => simp [htake, hdrop] at h
    | cons c es =>
      rw [hdrop] at hhead
      obtain rfl : c = quoteMark := by simpa using hhead
      simp only [htake, hdrop, Option.some.injEq, Prod.mk.injEq] at h
      obtain ⟨rfl, rfl⟩ := h
      have hname : IsName (String.ofList (n :: ns)) := by
        refine ⟨by simp, fun hq => ?_⟩
        rw [String.toList_ofList, ← htake] at hq
        simpa using hall _ hq
      refine ⟨_, ?_, .quoted hname⟩
      rw [← hcs, htake, hdrop]
      simp

theorem writesName_of_name? (h : name? cs = some (name, ds)) :
    ∃ ns, cs = ns ++ ds ∧ Grammar.WritesName name ns := by
  cases cs with
  | nil => cases h
  | cons c cs =>
    rw [name?] at h
    split at h
    · next hc => exact hc ▸ writesName_of_quotedRest? h
    · split at h
      · next hs =>
        obtain ⟨rfl, rfl⟩ : String.ofList (c :: cs.takeWhile isNamePart) = name ∧
            cs.dropWhile isNamePart = ds := by simpa using h
        refine ⟨c :: cs.takeWhile isNamePart, ?_, ?_⟩
        · rw [List.cons_append, List.takeWhile_append_dropWhile]
        · have hp : IsPlain (String.ofList (c :: cs.takeWhile isNamePart)) := by
            rw [IsPlain, String.toList_ofList, isPlainName, hs, List.all_takeWhile, Bool.and_self]
          simpa using Grammar.WritesName.plain hp
      · cases h

def IsNameHead (c : Char) : Prop := c = quoteMark ∨ isNameStart c = true

theorem exists_head_of_writesName (h : Grammar.WritesName name cs) :
    ∃ c ds, cs = c :: ds ∧ IsNameHead c := by
  cases h with
  | plain h =>
    unfold IsPlain at h
    cases hn : name.toList with
    | nil => simp [hn, isPlainName] at h
    | cons c ds =>
      simp only [hn, isPlainName, Bool.and_eq_true] at h
      exact ⟨c, ds, rfl, Or.inr h.1⟩
  | quoted h => exact ⟨_, _, rfl, Or.inl rfl⟩

theorem IsNameHead.isGap (h : IsNameHead c) : isGap c = false := by
  rcases h with rfl | h
  · decide
  · exact isGap_eq_false_of_isNamePart (isNamePart_of_isNameStart h)

theorem IsNameHead.ne {d : Char} (h : IsNameHead c) (hq : d ≠ quoteMark)
    (hd : isNameStart d = false) : c ≠ d := by
  rintro rfl
  rcases h with h | h
  · exact hq h
  · rw [hd] at h
    cases h

theorem literal?_self (hr : NameEnds cs) : literal? c (c :: cs) = some cs := by
  have hn : cs.head?.any isNamePart = false := by
    cases cs with
    | nil => rfl
    | cons d cs => exact hr d rfl
  rw [literal?, if_pos ⟨rfl, hn⟩]

theorem literal?_ne {d : Char} (h : d ≠ c) : literal? c (d :: cs) = none := by
  rw [literal?, if_neg fun e => h e.1]

theorem eq_of_literal? (h : literal? c cs = some ds) : cs = c :: ds := by
  cases cs with
  | nil => cases h
  | cons d cs =>
    rw [literal?] at h
    split at h
    · next e =>
      obtain rfl : cs = ds := by simpa using h
      rw [e.1]
    · cases h

/-! ## Links, items and signs -/

section Marks

variable {rest symbol : List Char}

def IsLink (symbol : List Char) : Prop := symbol = [':', ':'] ∨ symbol = ['&', '&']

theorem IsLink.length_eq (h : IsLink symbol) : symbol.length = 2 := by
  rcases h with rfl | rfl <;> rfl

theorem IsLink.stopsAt (h : IsLink symbol) : StopsAt factorMarks (symbol ++ cs) := by
  rcases h with rfl | rfl <;> exact stopsAt_cons (by decide) (by decide)

theorem IsLink.skipGap_append (h : IsLink symbol) : skipGap (symbol ++ cs) = symbol ++ cs := by
  rcases h with rfl | rfl <;> exact skipGap_cons (by decide)

theorem IsLink.isPrefixOf? (h : IsLink symbol) : symbol.isPrefixOf? (symbol ++ cs) = some cs := by
  rcases h with rfl | rfl <;> rfl

theorem IsLink.isPrefixOf?_of_stopsAt (h : IsLink symbol) (hr : StopsAt termMarks rest) :
    symbol.isPrefixOf? (skipGap rest) = none := by
  cases hs : skipGap rest with
  | nil => rcases h with rfl | rfl <;> rfl
  | cons c cs =>
    have hc := hr.mem_of_skipGap hs
    simp only [termMarks, List.mem_cons, List.not_mem_nil, or_false] at hc
    rcases h with rfl | rfl <;> rcases hc with rfl | rfl | rfl | rfl <;> rfl

theorem skipGap_eq_nil (hg : Grammar.IsGap g) : skipGap g = [] := by
  rw [← List.append_nil g, skipGap_append hg]
  rfl

theorem stopsAt_of_isGap {marks : List Char} (hg : Grammar.IsGap g) : StopsAt marks g := by
  rw [← List.append_nil g]
  exact (stopsAt_gap hg).mpr (StopsAt.nil marks)

def IsItemHead (c : Char) : Prop := c ∈ ['.', '0', '1'] ∨ IsNameHead c

theorem IsItemHead.isGap {c : Char} (h : IsItemHead c) : isGap c = false := by
  rcases h with h | h
  · simp only [List.mem_cons, List.not_mem_nil, or_false] at h
    rcases h with rfl | rfl | rfl <;> decide
  · exact h.isGap

theorem IsItemHead.sign? {c : Char} (h : IsItemHead c) : sign? (c :: cs) = none := by
  unfold Formula.sign?
  split
  · next e =>
    obtain ⟨rfl, -⟩ := List.cons.inj e
    rcases h with h | h
    · exact absurd h (by decide)
    · exact absurd rfl (h.ne (by decide) (by decide))
  · next e =>
    obtain ⟨rfl, -⟩ := List.cons.inj e
    rcases h with h | h
    · exact absurd h (by decide)
    · exact absurd rfl (h.ne (by decide) (by decide))
  · rfl

open Grammar (signMark) in
theorem signMark_facts (sign : Sign) : isGap (signMark sign) = false ∧
    signMark sign ∈ termMarks ∧ ∀ cs, sign? (signMark sign :: cs) = some (sign, cs) := by
  cases sign <;> exact ⟨by decide, by decide, fun _ => rfl⟩

end Marks

end Formula

end ModelFormula
