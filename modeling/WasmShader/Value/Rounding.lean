/-!
# Rounding to integers

Floating-point numbers rounded to integers, as numbers of the same format. The
sign of a zero result is the sign of the argument.
-/

namespace WasmShader.Rounding

/-- Toward zero. -/
def truncate (x : Float) : Float :=
  if x < 0 then x.ceil else x.floor

/-- To the nearest integer, a half to the even one. -/
def nearestEven (x : Float) : Float :=
  let t := truncate x
  let d := (x - t).abs
  if d < 0.5 then t
  else if d > 0.5 then x.round
  else if d == 0.5 then
    if truncate (t / 2) == t / 2 then t else x.round
  else x

/-- The sign bit is set. -/
def signBit (x : Float) : Bool :=
  x.toBits >>> 63 == 1

/-- The lesser of two numbers: NaN if either is, and a negative zero is below a
positive one. -/
def minimum (a b : Float) : Float :=
  if a.isNaN || b.isNaN then 0.0 / 0.0
  else if a == 0 && b == 0 then if signBit a then a else b
  else if a < b then a else b

def maximum (a b : Float) : Float :=
  if a.isNaN || b.isNaN then 0.0 / 0.0
  else if a == 0 && b == 0 then if signBit a then b else a
  else if a < b then b else a

end WasmShader.Rounding
