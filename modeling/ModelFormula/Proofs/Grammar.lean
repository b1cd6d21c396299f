import ModelFormula.Formula.Parser

/-! # The grammar of formulas

Which texts write which terms and which scripts of edits, with gaps of any length between the
tokens. The relations say what is written and nothing of how a text is read. A response or an
argument is a term that is no placeholder: a chain by `::`, or a chain by `&&` of one repeated
factor.
-/

namespace ModelFormula

/-- A name that can stand between backticks. -/
def IsName (name : String) : Prop := name ≠ "" ∧ quoteMark ∉ name.toList

instance (name : String) : Decidable (IsName name) := inferInstanceAs (Decidable (_ ∧ _))

/-- A name that can stand without backticks. -/
def IsPlain (name : String) : Prop := isPlainName name.toList = true

instance (name : String) : Decidable (IsPlain name) := inferInstanceAs (Decidable (_ = true))

namespace Grammar

open Formula (Sign)

def IsGap (cs : List Char) : Prop := ∀ c ∈ cs, c ∈ [' ', '\t', '\r', '\n']

theorem isGap_nil : IsGap [] := fun _ h => nomatch h

theorem isGap_space : IsGap [' '] := List.forall_mem_singleton.mpr (by decide)

inductive WritesName : String → List Char → Prop where

  | plain {name : String} : IsPlain name → WritesName name name.toList

  | quoted {name : String} : IsName name →
      WritesName name (quoteMark :: (name.toList ++ [quoteMark]))

mutual

inductive WritesFactor : Term → List Char → Prop where

  | column {name : String} {cs : List Char} : WritesName name cs →
      WritesFactor (.variable name) cs

  | call {name : String} {arg : Term} {cs body g₁ g₂ g₃ : List Char} : WritesName name cs →
      IsGap g₁ → IsGap g₂ → WritesTerm arg body → arg.isPlaceholder = false → IsGap g₃ →
      WritesFactor (.function name arg) (cs ++ (g₁ ++ '(' :: (g₂ ++ (body ++ (g₃ ++ [')'])))))

inductive WritesLinks : List Char → List Term → List Char → Prop where

  | nil {symbol : List Char} : WritesLinks symbol [] []

  | cons {symbol : List Char} {term : Term} {terms : List Term} {g₁ g₂ cs ds : List Char} :
      IsGap g₁ → IsGap g₂ → WritesFactor term cs → WritesLinks symbol terms ds →
      WritesLinks symbol (term :: terms) (g₁ ++ (symbol ++ (g₂ ++ (cs ++ ds))))

inductive WritesTerm : Term → List Char → Prop where

  | dot : WritesTerm .dot ['.']

  | interaction {first : Term} {others : List Term} {cs ds : List Char} :
      WritesFactor first cs → WritesLinks [':', ':'] others ds →
      WritesTerm (.interactionOf (first :: others)) (cs ++ ds)

  | crossing {first : Term} {others : List Term} {cs ds : List Char} :
      WritesFactor first cs → WritesLinks ['&', '&'] others ds →
      WritesTerm (.crossingOf (first :: others)) (cs ++ ds)

end

/-- The text of an item after a sign. The intercept is added by `+ 1` and `- 0` and removed by
`- 1` and `+ 0`. -/
inductive WritesItem : Sign → Edit → List Char → Prop where

  | addOne : WritesItem .plus (.add .intercept) ['1']

  | removeOne : WritesItem .minus (.remove .intercept) ['1']

  | removeZero : WritesItem .plus (.remove .intercept) ['0']

  | addZero : WritesItem .minus (.add .intercept) ['0']

  | add {term : Term} {cs : List Char} : WritesTerm term cs → WritesItem .plus (.add term) cs

  | remove {term : Term} {cs : List Char} : WritesTerm term cs →
      WritesItem .minus (.remove term) cs

theorem writesItem_of_term {sign : Sign} {term : Term} {cs : List Char} (h : WritesTerm term cs) :
    WritesItem sign (sign.edit term) cs := by
  cases sign with
  | plus => exact .add h
  | minus => exact .remove h

def signMark : Sign → Char
  | .plus => '+'
  | .minus => '-'

inductive WritesItems : List Edit → List Char → Prop where

  | nil : WritesItems [] []

  | cons {sign : Sign} {edit : Edit} {edits : List Edit} {g₁ g₂ cs ds : List Char} :
      IsGap g₁ → IsGap g₂ → WritesItem sign edit cs → WritesItems edits ds →
      WritesItems (edit :: edits) (g₁ ++ signMark sign :: (g₂ ++ (cs ++ ds)))

inductive WritesFirstSign : Sign → List Char → Prop where

  | omitted : WritesFirstSign .plus []

  | given {sign : Sign} {g : List Char} : IsGap g → WritesFirstSign sign (signMark sign :: g)

/-- The text after `~`, without the gaps around it. -/
inductive WritesRight : List Edit → List Char → Prop where

  | unsigned {edit : Edit} {edits : List Edit} {cs ds : List Char} :
      WritesItem .plus edit cs → WritesItems edits ds → WritesRight (edit :: edits) (cs ++ ds)

  | signed {sign : Sign} {edit : Edit} {edits : List Edit} {g cs ds : List Char} :
      IsGap g → WritesItem sign edit cs → WritesItems edits ds →
      WritesRight (edit :: edits) (signMark sign :: (g ++ (cs ++ ds)))

theorem WritesFirstSign.right {sign : Sign} {edit : Edit} {edits : List Edit}
    {ss cs ds : List Char} (h : WritesFirstSign sign ss) (hi : WritesItem sign edit cs)
    (hs : WritesItems edits ds) : WritesRight (edit :: edits) (ss ++ (cs ++ ds)) := by
  cases h with
  | omitted => simpa using WritesRight.unsigned hi hs
  | given hg => simpa using WritesRight.signed hg hi hs

inductive WritesLeft : Option Term → List Char → Prop where

  | none : WritesLeft none []

  | some {term : Term} {cs g : List Char} : WritesTerm term cs → term.isPlaceholder = false →
      IsGap g → WritesLeft (some term) (cs ++ g)

/-- The text of a formula with this response, whose items are these edits. -/
inductive WritesFormula : Option Term → List Edit → List Char → Prop where

  | mk {response : Option Term} {edits : List Edit} {g₁ g₂ g₃ cs ds : List Char} :
      IsGap g₁ → WritesLeft response cs → IsGap g₂ → WritesRight edits ds → IsGap g₃ →
      WritesFormula response edits (g₁ ++ (cs ++ '~' :: (g₂ ++ (ds ++ g₃))))

end Grammar

end ModelFormula
