import ModelFormula.Proofs.Expressible
import ModelFormula.Proofs.Tokens

/-! # Syntax trees and their layouts

A syntax tree keeps what a text says before any term is built from it: each chain with its symbol
and all of its factors. The layouts of a tree are the texts that write it, with gaps of any length
between the tokens. A tree may have any chain or the wildcard as response or argument; the script
relation of the grammar is about the trees that have only nestable ones there. Which reader takes a
layout is told by its first character.
-/

namespace ModelFormula.Grammar

open Formula (Sign)

inductive Link
  | interaction | crossing
  deriving DecidableEq, Repr

def Link.symbol : Link → List Char
  | interaction => [':', ':']
  | crossing => ['&', '&']

def Link.join : Link → List Term → Term
  | interaction => Term.interactionOf
  | crossing => Term.crossingOf

mutual

/-- A name, or a name and an argument in parentheses. -/
inductive FactorTree
  | column (name : String)
  | call (name : String) (arg : TermTree)

/-- The wildcard, or one or more factors with the same symbol between them. -/
inductive TermTree
  | dot
  | chain (link : Link) (first : FactorTree) (others : List FactorTree)

end

mutual

def FactorTree.term : FactorTree → Term
  | .column name => .variable name
  | .call name arg => .function name arg.term

def FactorTree.terms : List FactorTree → List Term
  | [] => []
  | factor :: factors => factor.term :: FactorTree.terms factors

def TermTree.term : TermTree → Term
  | .dot => .dot
  | .chain link first others => link.join (first.term :: FactorTree.terms others)

end

mutual

def FactorTree.arguments : FactorTree → List TermTree
  | .column _ => []
  | .call _ arg => arg :: arg.arguments

def FactorTree.allArguments : List FactorTree → List TermTree
  | [] => []
  | factor :: factors => factor.arguments ++ FactorTree.allArguments factors

def TermTree.arguments : TermTree → List TermTree
  | .dot => []
  | .chain _ first others => first.arguments ++ FactorTree.allArguments others

end

/-- What may stand as a response or an argument: no wildcard, and a chain by `&&` only when it
repeats one factor. -/
def TermTree.Nestable : TermTree → Prop
  | .dot => False
  | .chain .interaction _ _ => True
  | .chain .crossing first others => ∀ factor ∈ others, factor.term = first.term

def TermTree.IsPlaceholder : TermTree → Prop
  | .dot => True
  | .chain link _ others => link = .crossing ∧ others ≠ []

inductive ItemTree
  | zero | one
  | term (tree : TermTree)

namespace ItemTree

def arguments : ItemTree → List TermTree
  | zero | one => []
  | term tree => tree.arguments

def edit (sign : Sign) : ItemTree → Edit
  | zero => sign.opposite.edit .intercept
  | one => sign.edit .intercept
  | term tree => sign.edit tree.term

end ItemTree

structure FormulaTree where
  response : Option TermTree
  items : List (Sign × ItemTree)

namespace FormulaTree

/-- The trees that stand as the response or in parentheses. -/
def nested (tree : FormulaTree) : List TermTree :=
  (tree.response.toList.flatMap fun response => response :: response.arguments) ++
    tree.items.flatMap fun item => item.2.arguments

def edits (tree : FormulaTree) : List Edit := tree.items.map fun item => item.2.edit item.1

def formula (tree : FormulaTree) : Formula :=
  (Formula.ofResponse (tree.response.map TermTree.term)).run tree.edits

end FormulaTree

/-! ## Layouts -/

mutual

inductive FactorLayout : FactorTree → List Char → Prop where

  | column {name : String} {cs : List Char} : WritesName name cs →
      FactorLayout (.column name) cs

  | call {name : String} {arg : TermTree} {cs body g₁ g₂ g₃ : List Char} : WritesName name cs →
      IsGap g₁ → IsGap g₂ → TermLayout arg body → IsGap g₃ →
      FactorLayout (.call name arg) (cs ++ (g₁ ++ '(' :: (g₂ ++ (body ++ (g₃ ++ [')'])))))

inductive LinksLayout : List Char → List FactorTree → List Char → Prop where

  | nil {symbol : List Char} : LinksLayout symbol [] []

  | cons {symbol : List Char} {factor : FactorTree} {factors : List FactorTree}
      {g₁ g₂ cs ds : List Char} : IsGap g₁ → IsGap g₂ → FactorLayout factor cs →
      LinksLayout symbol factors ds →
      LinksLayout symbol (factor :: factors) (g₁ ++ (symbol ++ (g₂ ++ (cs ++ ds))))

inductive TermLayout : TermTree → List Char → Prop where

  | dot : TermLayout .dot ['.']

  | chain {link : Link} {first : FactorTree} {others : List FactorTree} {cs ds : List Char} :
      FactorLayout first cs → LinksLayout link.symbol others ds →
      TermLayout (.chain link first others) (cs ++ ds)

end

inductive ItemLayout : ItemTree → List Char → Prop where

  | zero : ItemLayout .zero ['0']

  | one : ItemLayout .one ['1']

  | term {tree : TermTree} {cs : List Char} : TermLayout tree cs → ItemLayout (.term tree) cs

inductive ItemsLayout : List (Sign × ItemTree) → List Char → Prop where

  | nil : ItemsLayout [] []

  | cons {sign : Sign} {item : ItemTree} {items : List (Sign × ItemTree)}
      {g₁ g₂ cs ds : List Char} : IsGap g₁ → IsGap g₂ → ItemLayout item cs →
      ItemsLayout items ds →
      ItemsLayout ((sign, item) :: items) (g₁ ++ signMark sign :: (g₂ ++ (cs ++ ds)))

inductive RightLayout : List (Sign × ItemTree) → List Char → Prop where

  | unsigned {item : ItemTree} {items : List (Sign × ItemTree)} {cs ds : List Char} :
      ItemLayout item cs → ItemsLayout items ds → RightLayout ((.plus, item) :: items) (cs ++ ds)

  | signed {sign : Sign} {item : ItemTree} {items : List (Sign × ItemTree)} {g cs ds : List Char} :
      IsGap g → ItemLayout item cs → ItemsLayout items ds →
      RightLayout ((sign, item) :: items) (signMark sign :: (g ++ (cs ++ ds)))

inductive LeftLayout : Option TermTree → List Char → Prop where

  | none : LeftLayout none []

  | some {tree : TermTree} {cs g : List Char} : TermLayout tree cs → IsGap g →
      LeftLayout (some tree) (cs ++ g)

inductive FormulaLayout : FormulaTree → List Char → Prop where

  | mk {response : Option TermTree} {items : List (Sign × ItemTree)}
      {g₁ g₂ g₃ cs ds : List Char} :
      IsGap g₁ → LeftLayout response cs → IsGap g₂ → RightLayout items ds → IsGap g₃ →
      FormulaLayout ⟨response, items⟩ (g₁ ++ (cs ++ '~' :: (g₂ ++ (ds ++ g₃))))

/-! ## Nestable trees -/

variable {cs : List Char} {tree : TermTree}

theorem terms_eq (factors : List FactorTree) :
    FactorTree.terms factors = factors.map FactorTree.term := by
  induction factors with
  | nil => rfl
  | cons factor factors ih => rw [FactorTree.terms, ih, List.map_cons]

theorem isFactor_term (factor : FactorTree) : factor.term.isFactor = true := by
  cases factor <;> rfl

theorem isPlaceholder_crossingOf {first : Term} {others : List Term}
    (h : first.isPlaceholder = false) :
    (Term.crossingOf (first :: others)).isPlaceholder = false ↔ ∀ t ∈ others, t = first := by
  have hfilter : (others.filter fun t => !t == first) = [] ↔ ∀ t ∈ others, t = first := by
    simp [List.filter_eq_nil_iff]
  rw [← hfilter, Term.crossingOf, List.eraseDups_cons]
  cases hrest : others.filter fun t => !t == first with
  | nil => simpa using h
  | cons t rest => simp [List.eraseDups_cons, Term.isPlaceholder]

theorem isPlaceholder_interactionOf {terms : List Term} (h : ∀ t ∈ terms, t.isFactor = true) :
    (Term.interactionOf terms).isPlaceholder = false := by
  rw [Term.interactionOf, Term.flatMap_factors h]
  split
  · next t =>
    have ht := h t (List.mem_singleton_self t)
    cases t <;> first | rfl | cases ht
  · rfl

/-- The nestable trees are those whose terms are no placeholders. -/
theorem nestable_iff : tree.Nestable ↔ tree.term.isPlaceholder = false := by
  cases tree with
  | dot => simp [TermTree.Nestable, TermTree.term, Term.isPlaceholder]
  | chain link first others =>
    rw [TermTree.term, terms_eq]
    cases link with
    | interaction =>
      refine iff_of_true trivial (isPlaceholder_interactionOf fun t ht => ?_)
      rw [← List.map_cons, List.mem_map] at ht
      obtain ⟨factor, -, rfl⟩ := ht
      exact isFactor_term factor
    | crossing =>
      have hfirst : first.term.isPlaceholder = false := by cases first <;> rfl
      simp [Link.join, isPlaceholder_crossingOf hfirst, TermTree.Nestable]

theorem nestable_of_not_isPlaceholder (h : ¬ tree.IsPlaceholder) : tree.Nestable := by
  cases tree with
  | dot => exact h trivial
  | chain link first others =>
    cases link with
    | interaction => trivial
    | crossing =>
      obtain rfl : others = [] := by simpa [TermTree.IsPlaceholder] using h
      exact fun _ hf => nomatch hf

/-! ## Layouts of trees and texts of terms -/

mutual

theorem writesFactor_of_layout : ∀ {factor : FactorTree} {cs : List Char},
    FactorLayout factor cs → (∀ t ∈ factor.arguments, t.Nestable) → WritesFactor factor.term cs
  | _, _, .column hn, _ => .column hn
  | .call _ arg, _, .call hn h₁ h₂ ha h₃, h => by
    obtain ⟨harg, hinner⟩ := List.forall_mem_cons.mp h
    exact .call hn h₁ h₂ (writesTerm_of_layout ha hinner) (nestable_iff.mp harg) h₃

theorem writesLinks_of_layout : ∀ {symbol : List Char} {factors : List FactorTree}
    {cs : List Char}, LinksLayout symbol factors cs →
    (∀ t ∈ FactorTree.allArguments factors, t.Nestable) →
    WritesLinks symbol (FactorTree.terms factors) cs
  | _, _, _, .nil, _ => .nil
  | _, _ :: _, _, .cons h₁ h₂ hf hl, h => by
    obtain ⟨hfirst, hrest⟩ := List.forall_mem_append.mp h
    exact .cons h₁ h₂ (writesFactor_of_layout hf hfirst) (writesLinks_of_layout hl hrest)

theorem writesTerm_of_layout : ∀ {tree : TermTree} {cs : List Char}, TermLayout tree cs →
    (∀ t ∈ tree.arguments, t.Nestable) → WritesTerm tree.term cs
  | _, _, .dot, _ => .dot
  | .chain link _ _, _, .chain hf hl, h => by
    obtain ⟨hfirst, hrest⟩ := List.forall_mem_append.mp h
    have hwf := writesFactor_of_layout hf hfirst
    have hwl := writesLinks_of_layout hl hrest
    cases link with
    | interaction => exact .interaction hwf hwl
    | crossing => exact .crossing hwf hwl

end

mutual

theorem exists_layout_of_writesFactor : ∀ {term : Term} {cs : List Char}, WritesFactor term cs →
    ∃ factor : FactorTree, FactorLayout factor cs ∧ factor.term = term ∧
      ∀ t ∈ factor.arguments, t.Nestable
  | _, _, .column hn => ⟨_, .column hn, rfl, fun _ ht => nomatch ht⟩
  | _, _, .call hn h₁ h₂ ha hp h₃ => by
    obtain ⟨arg, harg, rfl, hinner⟩ := exists_layout_of_writesTerm ha
    exact ⟨.call _ arg, .call hn h₁ h₂ harg h₃, rfl,
      List.forall_mem_cons.mpr ⟨nestable_iff.mpr hp, hinner⟩⟩

theorem exists_layout_of_writesLinks : ∀ {symbol : List Char} {terms : List Term}
    {cs : List Char}, WritesLinks symbol terms cs →
    ∃ factors : List FactorTree, LinksLayout symbol factors cs ∧
      FactorTree.terms factors = terms ∧ ∀ t ∈ FactorTree.allArguments factors, t.Nestable
  | _, _, _, .nil => ⟨[], .nil, rfl, fun _ ht => nomatch ht⟩
  | _, _, _, .cons h₁ h₂ hf hl => by
    obtain ⟨factor, hfactor, rfl, hfirst⟩ := exists_layout_of_writesFactor hf
    obtain ⟨factors, hfactors, rfl, hrest⟩ := exists_layout_of_writesLinks hl
    exact ⟨factor :: factors, .cons h₁ h₂ hfactor hfactors, rfl,
      List.forall_mem_append.mpr ⟨hfirst, hrest⟩⟩

theorem exists_layout_of_writesTerm : ∀ {term : Term} {cs : List Char}, WritesTerm term cs →
    ∃ tree : TermTree, TermLayout tree cs ∧ tree.term = term ∧ ∀ t ∈ tree.arguments, t.Nestable
  | _, _, .dot => ⟨.dot, .dot, rfl, fun _ ht => nomatch ht⟩
  | _, _, .interaction hf hl => by
    obtain ⟨first, hfirst, rfl, hnest⟩ := exists_layout_of_writesFactor hf
    obtain ⟨others, hothers, rfl, hrest⟩ := exists_layout_of_writesLinks hl
    exact ⟨.chain .interaction first others, .chain hfirst hothers, rfl,
      List.forall_mem_append.mpr ⟨hnest, hrest⟩⟩
  | _, _, .crossing hf hl => by
    obtain ⟨first, hfirst, rfl, hnest⟩ := exists_layout_of_writesFactor hf
    obtain ⟨others, hothers, rfl, hrest⟩ := exists_layout_of_writesLinks hl
    exact ⟨.chain .crossing first others, .chain hfirst hothers, rfl,
      List.forall_mem_append.mpr ⟨hnest, hrest⟩⟩

end

theorem isFactor_of_writesLinks {symbol : List Char} {terms : List Term}
    (h : WritesLinks symbol terms cs) : ∀ t ∈ terms, t.isFactor = true := by
  obtain ⟨factors, -, rfl, -⟩ := exists_layout_of_writesLinks h
  rw [terms_eq, List.forall_mem_map]
  exact fun factor _ => isFactor_term factor

section Formulas

variable {sign : Sign} {item : ItemTree} {items : List (Sign × ItemTree)} {edit : Edit}
  {edits : List Edit} {response : Option Term} {responseTree : Option TermTree}

theorem writesItem_of_layout (h : ItemLayout item cs) (hn : ∀ t ∈ item.arguments, t.Nestable) :
    WritesItem sign (item.edit sign) cs := by
  cases h with
  | zero =>
    cases sign with
    | plus => exact .removeZero
    | minus => exact .addZero
  | one =>
    cases sign with
    | plus => exact .addOne
    | minus => exact .removeOne
  | term h => exact writesItem_of_term (writesTerm_of_layout h hn)

theorem exists_layout_of_writesItem (h : WritesItem sign edit cs) :
    ∃ item : ItemTree, ItemLayout item cs ∧ item.edit sign = edit ∧
      ∀ t ∈ item.arguments, t.Nestable := by
  cases h with
  | addOne => exact ⟨.one, .one, rfl, fun _ ht => nomatch ht⟩
  | removeOne => exact ⟨.one, .one, rfl, fun _ ht => nomatch ht⟩
  | removeZero => exact ⟨.zero, .zero, rfl, fun _ ht => nomatch ht⟩
  | addZero => exact ⟨.zero, .zero, rfl, fun _ ht => nomatch ht⟩
  | add h | remove h =>
    obtain ⟨tree, htree, rfl, hnest⟩ := exists_layout_of_writesTerm h
    exact ⟨.term tree, .term htree, rfl, hnest⟩

theorem writesItems_of_layout (h : ItemsLayout items cs)
    (hn : ∀ t ∈ items.flatMap fun item => item.2.arguments, t.Nestable) :
    WritesItems (items.map fun item => item.2.edit item.1) cs := by
  induction h with
  | nil => exact .nil
  | cons h₁ h₂ hi _ ih =>
    obtain ⟨hfirst, hrest⟩ := List.forall_mem_append.mp hn
    exact .cons h₁ h₂ (writesItem_of_layout hi hfirst) (ih hrest)

theorem exists_layout_of_writesItems (h : WritesItems edits cs) :
    ∃ items : List (Sign × ItemTree), ItemsLayout items cs ∧
      (items.map fun item => item.2.edit item.1) = edits ∧
      ∀ t ∈ items.flatMap fun item => item.2.arguments, t.Nestable := by
  induction h with
  | nil => exact ⟨[], .nil, rfl, fun _ ht => nomatch ht⟩
  | @cons sign edit edits _ _ _ _ h₁ h₂ hi _ ih =>
    obtain ⟨item, hitem, rfl, hfirst⟩ := exists_layout_of_writesItem hi
    obtain ⟨items, hitems, rfl, hrest⟩ := ih
    exact ⟨(sign, item) :: items, .cons h₁ h₂ hitem hitems, rfl,
      List.forall_mem_append.mpr ⟨hfirst, hrest⟩⟩

theorem writesRight_of_layout (h : RightLayout items cs)
    (hn : ∀ t ∈ items.flatMap fun item => item.2.arguments, t.Nestable) :
    WritesRight (items.map fun item => item.2.edit item.1) cs := by
  cases h with
  | unsigned hi hs =>
    obtain ⟨hfirst, hrest⟩ := List.forall_mem_append.mp hn
    exact .unsigned (writesItem_of_layout hi hfirst) (writesItems_of_layout hs hrest)
  | signed hg hi hs =>
    obtain ⟨hfirst, hrest⟩ := List.forall_mem_append.mp hn
    exact .signed hg (writesItem_of_layout hi hfirst) (writesItems_of_layout hs hrest)

theorem exists_layout_of_writesRight (h : WritesRight edits cs) :
    ∃ items : List (Sign × ItemTree), RightLayout items cs ∧
      (items.map fun item => item.2.edit item.1) = edits ∧
      ∀ t ∈ items.flatMap fun item => item.2.arguments, t.Nestable := by
  cases h with
  | unsigned hi hs =>
    obtain ⟨item, hitem, rfl, hfirst⟩ := exists_layout_of_writesItem hi
    obtain ⟨items, hitems, rfl, hrest⟩ := exists_layout_of_writesItems hs
    exact ⟨(.plus, item) :: items, .unsigned hitem hitems, rfl,
      List.forall_mem_append.mpr ⟨hfirst, hrest⟩⟩
  | @signed sign _ _ _ _ _ hg hi hs =>
    obtain ⟨item, hitem, rfl, hfirst⟩ := exists_layout_of_writesItem hi
    obtain ⟨items, hitems, rfl, hrest⟩ := exists_layout_of_writesItems hs
    exact ⟨(sign, item) :: items, .signed hg hitem hitems, rfl,
      List.forall_mem_append.mpr ⟨hfirst, hrest⟩⟩

theorem writesFormula_of_layout {tree : FormulaTree} (h : FormulaLayout tree cs)
    (hn : ∀ t ∈ tree.nested, t.Nestable) :
    WritesFormula (tree.response.map TermTree.term) tree.edits cs := by
  cases h with
  | mk h₁ hl h₂ hr h₃ =>
    obtain ⟨hleft, hright⟩ := List.forall_mem_append.mp hn
    refine .mk h₁ ?_ h₂ (writesRight_of_layout hr hright) h₃
    cases hl with
    | none => exact .none
    | some ht hg =>
      obtain ⟨hnest, hinner⟩ := List.forall_mem_cons.mp (List.forall_mem_append.mp hleft).1
      exact .some (writesTerm_of_layout ht hinner) (nestable_iff.mp hnest) hg

theorem exists_layout_of_writesFormula (h : WritesFormula response edits cs) :
    ∃ tree : FormulaTree, FormulaLayout tree cs ∧ tree.response.map TermTree.term = response ∧
      tree.edits = edits ∧ ∀ t ∈ tree.nested, t.Nestable := by
  cases h with
  | mk h₁ hl h₂ hr h₃ =>
    obtain ⟨items, hitems, rfl, hright⟩ := exists_layout_of_writesRight hr
    cases hl with
    | none =>
      exact ⟨⟨none, items⟩, .mk h₁ .none h₂ hitems h₃, rfl, rfl, hright⟩
    | some ht hp hg =>
      obtain ⟨tree, htree, rfl, hinner⟩ := exists_layout_of_writesTerm ht
      refine ⟨⟨some tree, items⟩, .mk h₁ (.some htree hg) h₂ hitems h₃, rfl, rfl, ?_⟩
      refine List.forall_mem_append.mpr ⟨?_, hright⟩
      simpa using List.forall_mem_cons.mpr ⟨nestable_iff.mpr hp, hinner⟩

end Formulas

end ModelFormula.Grammar

/-! ## How layouts begin -/

namespace ModelFormula.Formula

open Grammar

variable {cs ds rest symbol g : List Char} {tree : TermTree} {f : FactorTree}
  {fs : List FactorTree} {itemTree : ItemTree} {trees : List (Sign × ItemTree)}

theorem exists_head_of_factorLayout (h : FactorLayout f cs) :
    ∃ c ds, cs = c :: ds ∧ IsNameHead c := by
  cases h with
  | column h => exact exists_head_of_writesName h
  | call h =>
    obtain ⟨c, ds, rfl, hc⟩ := exists_head_of_writesName h
    exact ⟨c, _, rfl, hc⟩

theorem skipGap_factorLayout (h : FactorLayout f cs) : skipGap (cs ++ ds) = cs ++ ds := by
  obtain ⟨c, cs, rfl, hc⟩ := exists_head_of_factorLayout h
  exact skipGap_cons hc.isGap

theorem exists_head_of_termLayout (h : TermLayout tree cs) :
    ∃ c ds, cs = c :: ds ∧ (c = '.' ∨ IsNameHead c) := by
  cases h with
  | dot => exact ⟨_, _, rfl, .inl rfl⟩
  | chain hf =>
    obtain ⟨c, ds, rfl, hc⟩ := exists_head_of_factorLayout hf
    exact ⟨c, _, rfl, .inr hc⟩

theorem skipGap_termLayout (h : TermLayout tree cs) : skipGap (cs ++ ds) = cs ++ ds := by
  obtain ⟨c, cs, rfl, rfl | hc⟩ := exists_head_of_termLayout h
  · exact skipGap_cons (by decide)
  · exact skipGap_cons hc.isGap

theorem stopsAt_linksLayout (h : LinksLayout symbol fs cs) (hs : IsLink symbol)
    (hr : StopsAt termMarks rest) : StopsAt factorMarks (cs ++ rest) := by
  cases h with
  | nil => exact hr.factor
  | cons h₁ =>
    simp only [List.append_assoc]
    exact (stopsAt_gap h₁).mpr hs.stopsAt

theorem isPrefixOf?_of_crossingLayout (h : LinksLayout ['&', '&'] fs cs)
    (hr : StopsAt termMarks rest) : [':', ':'].isPrefixOf? (skipGap (cs ++ rest)) = none := by
  cases h with
  | nil => exact IsLink.isPrefixOf?_of_stopsAt (.inl rfl) hr
  | cons h₁ =>
    rw [List.append_assoc, skipGap_append h₁, List.append_assoc, IsLink.skipGap_append (.inr rfl)]
    rfl

theorem length_le_of_linksLayout (h : LinksLayout symbol fs cs) (hs : IsLink symbol) :
    fs.length ≤ cs.length := by
  induction fs generalizing cs with
  | nil => exact Nat.zero_le _
  | cons f fs ih =>
    cases h with
    | cons _ _ _ hl =>
      have hrest := ih hl
      have hsymbol := hs.length_eq
      simp only [List.length_cons, List.length_append]
      omega

theorem isLink_symbol (link : Link) : IsLink link.symbol := by
  cases link
  · exact .inl rfl
  · exact .inr rfl

theorem exists_head_of_itemLayout (h : ItemLayout itemTree cs) :
    ∃ c ds, cs = c :: ds ∧ IsItemHead c := by
  cases h with
  | zero | one => exact ⟨_, _, rfl, .inl (by decide)⟩
  | term h =>
    obtain ⟨c, ds, e, rfl | hc⟩ := exists_head_of_termLayout h
    · exact ⟨_, ds, e, .inl (by decide)⟩
    · exact ⟨c, ds, e, .inr hc⟩

theorem skipGap_itemLayout (h : ItemLayout itemTree cs) : skipGap (cs ++ ds) = cs ++ ds := by
  obtain ⟨c, cs, rfl, hc⟩ := exists_head_of_itemLayout h
  exact skipGap_cons hc.isGap

theorem stopsAt_itemsLayout (h : ItemsLayout trees cs) (hg : IsGap g) :
    StopsAt termMarks (cs ++ g) := by
  cases h with
  | nil => exact stopsAt_of_isGap hg
  | @cons sign _ _ _ _ _ _ h₁ =>
    obtain ⟨hgap, hmem, -⟩ := signMark_facts sign
    rw [List.append_assoc]
    exact (stopsAt_gap h₁).mpr (stopsAt_cons hmem hgap)

theorem length_le_of_itemsLayout (h : ItemsLayout trees cs) : trees.length ≤ cs.length := by
  induction h with
  | nil => exact Nat.le_refl _
  | cons =>
    simp only [List.length_cons, List.length_append]
    omega

end ModelFormula.Formula
