import WasmShader.Text.Integer
import WasmShader.Value.FloatFormat

/-!
# Reading floating-point numbers

Decimal numbers with an optional exponent, hexadecimal numbers with a binary
exponent, and the names of infinity and NaN in any case. The result is the
pattern of the nearest number, ties to even; a number that rounds to infinity is
out of range.
-/

namespace WasmShader.Text

/-- A number in pieces: its digits as one integer, how many of them stand behind
the point, and the characters that follow. -/
structure Significand where
  value : Nat := 0
  places : Nat := 0
  digits : Bool := false
  rest : List Char := []

/-- Reads digits of the given base around at most one point. -/
def readSignificand (base : Nat) (hex : Bool) :
    (point : Bool) → Significand → List Char → Significand
  | _, acc, [] => { acc with rest := [] }
  | point, acc, c :: rest =>
    if c = '_' then readSignificand base hex point acc rest
    else if c = '.' then
      if point then { acc with rest := c :: rest } else readSignificand base hex true acc rest
    else if isDigitOf hex c then
      let d := (digitValue? c).getD 0
      readSignificand base hex point
        { acc with
          value := acc.value * base + d
          places := if point then acc.places + 1 else acc.places
          digits := true }
        rest
    else { acc with rest := c :: rest }

/-- Reads the digits of an exponent. Digits beyond a size that decides the
result are dropped. -/
def readExponentDigits : Nat → List Char → Nat × List Char
  | acc, [] => (acc, [])
  | acc, c :: rest =>
    if c = '_' then readExponentDigits acc rest
    else if isDecimal c then
      readExponentDigits (if acc < 10000 then acc * 10 + (c.toNat - 48) else acc) rest
    else (acc, c :: rest)

/-- Reads an exponent behind its mark; it needs a digit right after its sign. -/
def readExponent? (cs : List Char) : Option (Int × List Char) :=
  let (negative, digits) := match cs with
    | '-' :: rest => (true, rest)
    | '+' :: rest => (false, rest)
    | _ => (false, cs)
  match digits with
  | [] => none
  | c :: _ =>
    if isDecimal c then
      let (e, rest) := readExponentDigits 0 digits
      some (if negative then -(e : Int) else e, rest)
    else none

/-- The pattern of `value * base ^ exp`. Exponents that decide the result on
their own are answered without computing the power. -/
def scaledPattern (f : FloatFormat) (base : Nat) (value : Nat) (exp : Int) : Nat :=
  if value = 0 then 0
  else
    let size : Int := value.log2
    if 0 ≤ exp && 5000 < exp + size then f.infinity
    else if exp + size < -5000 then 0
    else if 0 ≤ exp then f.nearest (value * Nat.pow base exp.toNat) 1
    else f.nearest value (Nat.pow base (-exp).toNat)

/-- Reads a number without sign. -/
def readMagnitude? (f : FloatFormat) (cs : List Char) : Option (Nat × List Char) :=
  let hexDigits? := match cs with
    | '0' :: mark :: d :: rest => if lower mark = 'x' then some (d :: rest) else none
    | _ => none
  match hexDigits? with
  | some digits =>
    let s := readSignificand 16 true false {} digits
    match s.digits, s.rest with
    | true, mark :: rest =>
      if lower mark = 'p' then
        (readExponent? rest).map fun (e, rest) =>
          (scaledPattern f 2 s.value (e - 4 * s.places), rest)
      else none
    | _, _ => none
  | none =>
    let s := readSignificand 10 false false {} cs
    if !s.digits then none
    else match s.rest with
      | mark :: rest =>
        if lower mark = 'e' then
          (readExponent? rest).map fun (e, rest) =>
            (scaledPattern f 10 s.value (e - s.places), rest)
        else some (scaledPattern f 10 s.value (-s.places), s.rest)
      | [] => some (scaledPattern f 10 s.value (-s.places), [])

/-- The names of infinity and NaN. Only infinity may have a sign. -/
def readName? (f : FloatFormat) (cs : List Char) : Option Nat :=
  let name (cs : List Char) : String := String.ofList (cs.map lower)
  let isInfinity (s : String) : Bool := s == "inf" || s == "infinity"
  match cs with
  | '-' :: rest => if isInfinity (name rest) then some (f.signBit + f.infinity) else none
  | '+' :: rest => if isInfinity (name rest) then some f.infinity else none
  | _ =>
    if isInfinity (name cs) then some f.infinity
    else if name cs == "nan" then some f.nan
    else none

/-- Reads a floating-point number as its pattern. -/
def readFloat (f : FloatFormat) (cs : List Char) : Except NumberFault Nat :=
  match readName? f cs with
  | some bits => .ok bits
  | none =>
    let (negative, unsigned) := match cs with
      | '-' :: rest => (true, rest)
      | '+' :: rest => (false, rest)
      | _ => (false, cs)
    match readMagnitude? f unsigned with
    | some (bits, []) =>
      if cs.contains '_' && !underscoresFit cs then .error .invalidSyntax
      else if bits = f.infinity then .error .outOfRange
      else .ok (if negative then f.signBit + bits else bits)
    | _ => .error .invalidSyntax

end WasmShader.Text
