import ModelFormula.Term.Printer
import ModelFormula.Term.Crossing

/-! # Formulas

A formula is an optional response and a list of distinct predictors. It is built by edits that
add and remove terms; a crossing is edited as the terms that it stands for. Removing the response
from the predictors releases it: it may then be a predictor again.
-/

namespace ModelFormula

/-- The left side of a formula. It is released once it has been removed from the predictors. -/
structure Response where
  term : Term
  released : Bool := false
  deriving DecidableEq, Repr

/-- An optional response and distinct predictors in the order of their addition. -/
structure Formula where
  response : Option Response := none
  predictors : List Term := []
  nodup : predictors.Nodup := by simp
  deriving DecidableEq

inductive Edit
  | add (term : Term)
  | remove (term : Term)
  deriving DecidableEq, Repr

/-- A response is released when its own term is removed. -/
def Response.remove (response : Response) (term : Term) : Response :=
  if response.term = term then { response with released := true } else response

namespace Formula

@[ext] theorem ext {f g : Formula} (hr : f.response = g.response)
    (hp : f.predictors = g.predictors) : f = g := by
  cases f; cases g; cases hr; cases hp; rfl

def ofResponse (response : Option Term) : Formula where
  response := response.map fun term => { term }

instance : Inhabited Formula := ⟨{}⟩

def responseTerm? (f : Formula) : Option Term := f.response.map Response.term

def released (f : Formula) : Bool := f.response.any Response.released

def hasIntercept (f : Formula) : Bool := decide (.intercept ∈ f.predictors)

/-- Puts a term at the end of the predictors unless it is there already. -/
def insert (f : Formula) (term : Term) : Formula :=
  if h : term ∈ f.predictors then f
  else
    { f with
      predictors := f.predictors ++ [term]
      nodup := List.nodup_append.mpr ⟨f.nodup, by simp, by
        rintro a ha b hb rfl
        exact h (List.mem_singleton.mp hb ▸ ha)⟩ }

/-- Takes a predictor away and releases the response if it is the same term. -/
def erase (f : Formula) (term : Term) : Formula :=
  if term ∈ f.predictors then
    { response := f.response.map (·.remove term)
      predictors := f.predictors.erase term
      nodup := f.nodup.erase term }
  else f

/-- Adds a term, or all that a crossing stands for. -/
def add (f : Formula) (term : Term) : Formula := term.summands.foldl insert f

def remove (f : Formula) (term : Term) : Formula := term.summands.foldl erase f

def edit (f : Formula) : Edit → Formula
  | .add term => f.add term
  | .remove term => f.remove term

def run (f : Formula) (script : List Edit) : Formula := script.foldl edit f

/-- The formula with a column against all others. -/
def againstOthers (name : String) : Formula := (ofResponse (some (.variable name))).add .dot

def oneSided (terms : List Term) : Formula := terms.foldl add {}

/-- The same predictors with another response, which stays released only if it is unchanged. -/
def withResponse (f : Formula) (response : Option Term) : Formula :=
  { f with
    response := response.map fun term =>
      { term, released := f.released && f.responseTerm? == some term } }

end Formula

end ModelFormula
