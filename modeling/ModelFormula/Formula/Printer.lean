import ModelFormula.Formula.Basic

/-! # The text of a formula

Predictors are joined by `+`, and an empty list is written `0`. A released response is written
so that reading replays its release: as `y - y + y` where it is a predictor, else by `+ y - y` at
the end.
-/

namespace ModelFormula.Formula

def releasedTerm? (f : Formula) : Option Term :=
  (f.response.filter Response.released).map Response.term

/-- The characters of a predictor; the released response is added, removed and added again. -/
def predictorChars (released : Option Term) (term : Term) : List Char :=
  if released = some term then
    term.chars ++ " - ".toList ++ term.chars ++ " + ".toList ++ term.chars
  else term.chars

def leftChars (f : Formula) : List Char :=
  match f.responseTerm? with
  | some term => term.chars ++ " ~ ".toList
  | none => "~ ".toList

/-- The characters that release a response which is no predictor. -/
def releaseChars (f : Formula) : List Char :=
  match f.releasedTerm? with
  | some term =>
    if term ∈ f.predictors then []
    else " + ".toList ++ term.chars ++ " - ".toList ++ term.chars
  | none => []

def rightChars (f : Formula) : List Char :=
  if f.predictors = [] then ['0']
  else " + ".toList.intercalate (f.predictors.map (predictorChars f.releasedTerm?))

def chars (f : Formula) : List Char := f.leftChars ++ f.rightChars ++ f.releaseChars

def render (f : Formula) : String := String.ofList f.chars

instance : ToString Formula := ⟨render⟩

@[simp] theorem toList_render (f : Formula) : f.render.toList = f.chars := by simp [render]

end ModelFormula.Formula
