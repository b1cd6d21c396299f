/-! # Terms

A term is a column, a function of a term, an interaction or a crossing of terms, the wildcard, or
the intercept. `Term.interaction` and `Term.crossing` are the plain constructors; the normalising
ones are `Term.interactionOf`, which flattens and unwraps, and `Term.crossingOf`, which drops
repeats and unwraps.
-/

namespace ModelFormula

/-- The unit of a formula. Terms are equal when they have the same shape, operands in order. -/
inductive Term
  /-- A column, by its name. -/
  | variable (name : String)
  /-- A named elementwise function of a term. -/
  | function (name : String) (arg : Term)
  /-- One term over several operands, without their main effects. -/
  | interaction (operands : List Term)
  /-- All main effects and interactions of the operands. -/
  | crossing (operands : List Term)
  /-- Every column that is not mentioned elsewhere. -/
  | dot
  /-- The constant column. -/
  | intercept
  deriving Repr

namespace Term

mutual

def decEq : (s t : Term) → Decidable (s = t)
  | .variable m, .variable n =>
    if h : m = n then .isTrue (by rw [h]) else .isFalse (by simp [h])
  | .function m s, .function n t =>
    if h : m = n then
      match decEq s t with
      | .isTrue e => .isTrue (by rw [h, e])
      | .isFalse e => .isFalse (by simp [e])
    else .isFalse (by simp [h])
  | .interaction ss, .interaction ts =>
    match decEqAll ss ts with
    | .isTrue e => .isTrue (by rw [e])
    | .isFalse e => .isFalse (by simp [e])
  | .crossing ss, .crossing ts =>
    match decEqAll ss ts with
    | .isTrue e => .isTrue (by rw [e])
    | .isFalse e => .isFalse (by simp [e])
  | .dot, .dot => .isTrue rfl
  | .intercept, .intercept => .isTrue rfl
  | .variable _, .function _ _ | .variable _, .interaction _ | .variable _, .crossing _
  | .variable _, .dot | .variable _, .intercept
  | .function _ _, .variable _ | .function _ _, .interaction _ | .function _ _, .crossing _
  | .function _ _, .dot | .function _ _, .intercept
  | .interaction _, .variable _ | .interaction _, .function _ _ | .interaction _, .crossing _
  | .interaction _, .dot | .interaction _, .intercept
  | .crossing _, .variable _ | .crossing _, .function _ _ | .crossing _, .interaction _
  | .crossing _, .dot | .crossing _, .intercept
  | .dot, .variable _ | .dot, .function _ _ | .dot, .interaction _ | .dot, .crossing _
  | .dot, .intercept
  | .intercept, .variable _ | .intercept, .function _ _ | .intercept, .interaction _
  | .intercept, .crossing _ | .intercept, .dot => .isFalse nofun

def decEqAll : (ss ts : List Term) → Decidable (ss = ts)
  | [], [] => .isTrue rfl
  | [], _ :: _ => .isFalse nofun
  | _ :: _, [] => .isFalse nofun
  | s :: ss, t :: ts =>
    match decEq s t with
    | .isTrue h =>
      match decEqAll ss ts with
      | .isTrue e => .isTrue (by rw [h, e])
      | .isFalse e => .isFalse (by simp [e])
    | .isFalse h => .isFalse (by simp [h])

end

instance : DecidableEq Term := decEq

/-- The operands that a term brings into an interaction: those of an interaction, else itself. -/
def factors : Term → List Term
  | .interaction operands => operands
  | term => [term]

/-- The interaction of the operands. Interactions among them are dissolved, and a single operand
is returned as it is. -/
def interactionOf (operands : List Term) : Term :=
  match operands.flatMap factors with
  | [single] => single
  | flat => .interaction flat

/-- The crossing of the operands. Repeats are dropped, and a single operand is returned as it
is. -/
def crossingOf (operands : List Term) : Term :=
  match operands.eraseDups with
  | [single] => single
  | several => .crossing several

mutual

def columns : Term → List String
  | .variable name => [name]
  | .function _ arg => columns arg
  | .interaction operands | .crossing operands => columnsAll operands
  | .dot | .intercept => []

def columnsAll : List Term → List String
  | [] => []
  | term :: terms => columns term ++ columnsAll terms

end

theorem columnsAll_eq (terms : List Term) : columnsAll terms = terms.flatMap columns := by
  induction terms with
  | nil => rfl
  | cons term terms ih => simp [columnsAll, ih]

/-- The wildcard and crossings stand for other terms and have to be expanded first. -/
def isPlaceholder : Term → Bool
  | .dot | .crossing _ => true
  | _ => false

mutual

/-- Whether a placeholder occurs strictly inside the term. -/
def hidesPlaceholder : Term → Bool
  | .function _ arg => arg.isPlaceholder || hidesPlaceholder arg
  | .interaction operands | .crossing operands => holdPlaceholder operands
  | .variable _ | .dot | .intercept => false

def holdPlaceholder : List Term → Bool
  | [] => false
  | term :: terms => term.isPlaceholder || hidesPlaceholder term || holdPlaceholder terms

end

theorem holdPlaceholder_eq (terms : List Term) :
    holdPlaceholder terms = terms.any fun term => term.isPlaceholder || term.hidesPlaceholder := by
  induction terms with
  | nil => rfl
  | cons term terms ih => simp [holdPlaceholder, ih]

end Term

end ModelFormula
