/-! # Rounding to an integer and the sign

Both keep the sign of zero, the infinities and NaN.
-/

namespace ModelFormula.Elementwise

/-- Whether the sign bit is set, as it is in `-0.0`. -/
def isSigned (x : Float) : Bool := x.toBits >>> 63 == 1

/-- From this size on every float is an integer. -/
def integral : Float := 4503599627370496.0

/-- The nearest integer; a half goes to the even neighbour. The sum with `integral` has no room
for a fraction, so the addition rounds it away by its own rule. -/
def roundHalfEven (x : Float) : Float :=
  if x.abs < integral then
    let size := x.abs + integral - integral
    if isSigned x then -size else size
  else x

/-- One with the sign of a number; a zero is returned as it is. -/
def signOf (x : Float) : Float :=
  if x > 0 then 1 else if x < 0 then -1 else x

end ModelFormula.Elementwise
