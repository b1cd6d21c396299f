/-! # Exponential and logarithm near zero

`exp x - 1` and `log (1 + x)` lose all digits for a small `x` when they are computed as written.
Here the rounding error made in `exp x` or `1 + x` is divided out again.
-/

namespace ModelFormula.Elementwise

/-- The value of `exp x - 1`. Where `exp x` rounds to one the result is `x`; further out it is
`exp x - 1` corrected by the ratio of `x` to the logarithm of the rounded `exp x`. -/
def expMinusOne (x : Float) : Float :=
  let power := x.exp
  if power == 1 then x
  else if x.abs > 1 then power - 1
  else (power - 1) * (x / power.log)

/-- The value of `log (1 + x)`. Where `1 + x` rounds to one the result is `x`; further out it is
the logarithm of the rounded sum corrected by the ratio of `x` to the rounded sum less one. -/
def logOnePlus (x : Float) : Float :=
  let sum := 1 + x
  if sum == 1 then x
  else if x > 1 then sum.log
  else sum.log * (x / (sum - 1))

end ModelFormula.Elementwise
