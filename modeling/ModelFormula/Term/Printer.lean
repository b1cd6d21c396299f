import ModelFormula.Term.Basic

/-! # The text of a term

A column whose name is a plain identifier is written bare, any other between backticks. The label
of a term, which names output columns, is the same text without the backticks.
-/

namespace ModelFormula

def quoteMark : Char := '\x60'

/-- Whether a plain identifier may begin with the character: an ASCII letter or `_`. -/
def isNameStart (c : Char) : Bool := c.isAlpha || c == '_'

/-- Whether a plain identifier may go on with the character: an ASCII letter or digit, `_` or
`.`. -/
def isNamePart (c : Char) : Bool := c.isAlphanum || c == '_' || c == '.'

def isPlainName : List Char → Bool
  | [] => false
  | c :: cs => isNameStart c && cs.all isNamePart

def quotedName (name : String) : List Char :=
  if isPlainName name.toList then name.toList else quoteMark :: name.toList ++ [quoteMark]

namespace Term

mutual

/-- The characters of a term, where `column` writes the name of a column. -/
def charsWith (column : String → List Char) : Term → List Char
  | .variable name => column name
  | .function name arg => name.toList ++ '(' :: charsWith column arg ++ [')']
  | .interaction operands => charsBetween column [':', ':'] operands
  | .crossing operands => charsBetween column [' ', '&', '&', ' '] operands
  | .dot => ['.']
  | .intercept => ['1']

def charsBetween (column : String → List Char) (sep : List Char) : List Term → List Char
  | [] => []
  | [term] => charsWith column term
  | term :: other :: terms =>
    charsWith column term ++ sep ++ charsBetween column sep (other :: terms)

end

def chars (term : Term) : List Char := term.charsWith quotedName

def render (term : Term) : String := String.ofList term.chars

instance : ToString Term := ⟨render⟩

/-- The name of a term's output column. -/
def label (term : Term) : String := String.ofList (term.charsWith String.toList)

theorem charsBetween_eq (column : String → List Char) (sep : List Char) (terms : List Term) :
    charsBetween column sep terms = sep.intercalate (terms.map (charsWith column)) := by
  induction terms with
  | nil => simp [charsBetween]
  | cons term terms ih =>
    cases terms with
    | nil => simp [charsBetween]
    | cons other terms => simp [charsBetween, ih, List.intercalate_cons_cons]

@[simp] theorem toList_render (term : Term) : term.render.toList = term.chars := by simp [render]

@[simp] theorem label_variable (name : String) : (Term.variable name).label = name := by
  simp [label, charsWith]

end Term

end ModelFormula
