import ModelFormula.Elementwise.Rounding
import ModelFormula.Elementwise.NearZero

/-! # Elementwise functions

The functions of one number that a formula may apply to a column, each with the name by which a
formula calls it.
-/

namespace ModelFormula

inductive Elementwise
  | abs | ceil | floor
  /-- A half goes away from zero. -/
  | round
  /-- A half goes to the even neighbour. -/
  | rint
  | exp | expm1 | log | log1p | log2 | log10 | sqrt | cbrt
  /-- The sign as a number; zero keeps its own. -/
  | signum
  | sin | cos | tan | asin | acos | atan | sinh | cosh | tanh
  deriving DecidableEq, Repr

namespace Elementwise

def all : List Elementwise :=
  [abs, ceil, floor, round, rint, exp, expm1, log, log1p, log2, log10, sqrt, cbrt, signum, sin,
    cos, tan, asin, acos, atan, sinh, cosh, tanh]

def name : Elementwise → String
  | abs => "abs"
  | ceil => "ceil"
  | floor => "floor"
  | round => "round"
  | rint => "rint"
  | exp => "exp"
  | expm1 => "expm1"
  | log => "log"
  | log1p => "log1p"
  | log2 => "log2"
  | log10 => "log10"
  | sqrt => "sqrt"
  | cbrt => "cbrt"
  | signum => "signum"
  | sin => "sin"
  | cos => "cos"
  | tan => "tan"
  | asin => "asin"
  | acos => "acos"
  | atan => "atan"
  | sinh => "sinh"
  | cosh => "cosh"
  | tanh => "tanh"

instance : ToString Elementwise := ⟨name⟩

def ofName? (name : String) : Option Elementwise := all.find? fun f => f.name == name

theorem ofName?_name (f : Elementwise) : ofName? f.name = some f := by cases f <;> decide

theorem name_of_ofName? {name : String} {f : Elementwise} (h : ofName? name = some f) :
    f.name = name := by
  simpa using List.find?_some h

def apply : Elementwise → Float → Float
  | abs, x => x.abs
  | ceil, x => x.ceil
  | floor, x => x.floor
  | round, x => x.round
  | rint, x => roundHalfEven x
  | exp, x => x.exp
  | expm1, x => expMinusOne x
  | log, x => x.log
  | log1p, x => logOnePlus x
  | log2, x => x.log2
  | log10, x => x.log10
  | sqrt, x => x.sqrt
  | cbrt, x => x.cbrt
  | signum, x => signOf x
  | sin, x => x.sin
  | cos, x => x.cos
  | tan, x => x.tan
  | asin, x => x.asin
  | acos, x => x.acos
  | atan, x => x.atan
  | sinh, x => x.sinh
  | cosh, x => x.cosh
  | tanh, x => x.tanh

end Elementwise

end ModelFormula
