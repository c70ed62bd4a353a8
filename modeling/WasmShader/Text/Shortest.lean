import WasmShader.Value.FloatFormat
import WasmShader.Text.Hex

/-!
# The shortest decimal of a floating-point number

The decimal of a number is the one with the fewest digits that reads back as the
number; of several, the nearest to it, and of two equally near ones the even.
The numbers that read back as `m * 2 ^ e` fill an interval around it, which
holds its ends iff `m` is even. On the grid of decimals with a given number of
digits only the two neighbours of the number need to be looked at.
-/

namespace WasmShader.Text

/-- A decimal: the digits of `digits` behind a point, times `10 ^ point`. -/
structure Decimal where
  digits : List Char
  point : Int
  deriving Repr

/-- A nonnegative quotient. -/
structure Ratio where
  num : Nat
  den : Nat

/-- Compares a quotient with the integer multiple `n` of `10 ^ exp`: strictly
below, equal, or above. -/
def Ratio.compareTo (r : Ratio) (n : Nat) (exp : Int) : Ordering :=
  if 0 ≤ exp then compare r.num (n * Nat.pow 10 exp.toNat * r.den)
  else compare (r.num * Nat.pow 10 (-exp).toNat) (n * r.den)

/-- How many times `10 ^ exp` fits into a quotient. -/
def Ratio.countOf (r : Ratio) (exp : Int) : Nat :=
  if 0 ≤ exp then r.num / (r.den * Nat.pow 10 exp.toNat)
  else r.num * Nat.pow 10 (-exp).toNat / r.den

/-- Twice the distance from the multiple `n` of `10 ^ exp` below the quotient,
compared with `10 ^ exp`: which of the two neighbours is nearer. -/
def Ratio.half (r : Ratio) (n : Nat) (exp : Int) : Ordering :=
  Ratio.compareTo ⟨2 * r.num, r.den⟩ (2 * n + 1) exp

/-- A number together with the interval of numbers that read back as it. -/
structure Target where
  value : Ratio
  low : Ratio
  high : Ratio
  closed : Bool

/-- The target of a positive finite pattern. The gap below a power of two is
half the gap above it. -/
def Target.ofBits (f : FloatFormat) (bits : Nat) : Target :=
  let (m, e) := f.decompose bits
  let narrow := m = 1 <<< (f.precision - 1) && f.minExp < e
  let scaled (n : Nat) : Ratio :=
    if 2 ≤ e then ⟨n <<< (e - 2).toNat, 1⟩ else ⟨n, 1 <<< (2 - e).toNat⟩
  { value := scaled (4 * m)
    low := scaled (if narrow then 4 * m - 1 else 4 * m - 2)
    high := scaled (4 * m + 2)
    closed := m % 2 = 0 }

/-- The multiple `n` of `10 ^ exp` reads back as the number. -/
def Target.accepts (t : Target) (n : Nat) (exp : Int) : Bool :=
  match t.low.compareTo n exp, t.high.compareTo n exp with
  | .lt, .gt => true
  | .eq, _ | _, .eq => t.closed
  | _, _ => false

/-- The neighbour of the number on the grid of `10 ^ exp` that reads back. -/
def Target.pick? (t : Target) (exp : Int) : Option Nat :=
  let n := t.value.countOf exp
  match t.accepts n exp, t.accepts (n + 1) exp with
  | true, false => some n
  | false, true => some (n + 1)
  | false, false => none
  | true, true =>
    match t.value.half n exp with
    | .lt => some n
    | .gt => some (n + 1)
    | .eq => some (if n % 2 = 0 then n else n + 1)

/-- Tries grids from `exp` down, at most `fuel` of them. -/
def Target.search (t : Target) : (fuel : Nat) → (exp : Int) → Nat × Int
  | 0, exp => (t.value.countOf exp, exp)
  | fuel + 1, exp =>
    match t.pick? exp with
    | some n => (n, exp)
    | none => t.search fuel (exp - 1)

/-- The decimal exponent of the leading digit of a positive quotient above
`10 ^ -350`. -/
def Ratio.leading (r : Ratio) : Int :=
  ((Nat.toDigits 10 (r.countOf (-350))).length : Int) - 351

/-- The shortest decimal of a positive finite pattern. Seventeen digits are
enough for every number of either format. -/
def shortest (f : FloatFormat) (bits : Nat) : Decimal :=
  let t := Target.ofBits f bits
  let (n, exp) := t.search 18 t.value.leading
  let all := Nat.toDigits 10 n
  let digits := (all.reverse.dropWhile (· = '0')).reverse
  ⟨digits, exp + all.length⟩

/-! ## The general form

A decimal is written out when its leading digit stands between the fourth place
behind the point and the sixth before it, and with an exponent of at least two
digits otherwise. -/

/-- A decimal with an exponent. -/
def Decimal.scientific (d : Decimal) : String :=
  let exp := d.point - 1
  let (lead, rest) := d.digits.splitAt 1
  let mantissa := String.ofList lead ++ (if rest.isEmpty then "" else "." ++ String.ofList rest)
  mantissa ++ "e" ++ (if exp < 0 then "-" else "+") ++ padLeft 2 '0' (toString exp.natAbs)

/-- A decimal written out. -/
def Decimal.positional (d : Decimal) : String :=
  if d.point ≤ 0 then
    "0." ++ String.ofList (List.replicate (-d.point).toNat '0' ++ d.digits)
  else
    let width := d.point.toNat
    let whole := d.digits.take width ++ List.replicate (width - d.digits.length) '0'
    let rest := d.digits.drop width
    String.ofList whole ++ (if rest.isEmpty then "" else "." ++ String.ofList rest)

/-- A positive decimal in the general form. -/
def Decimal.general (d : Decimal) : String :=
  if d.point - 1 < -4 || 6 ≤ d.point - 1 then d.scientific else d.positional

/-- The text of a floating-point pattern. -/
def floatText (f : FloatFormat) (bits : Nat) : String :=
  if f.isNaN bits then "NaN"
  else
    let magnitude := f.magnitude bits
    if magnitude = f.infinity then (if f.isNegative bits then "-Inf" else "+Inf")
    else
      (if f.isNegative bits then "-" else "")
        ++ (if magnitude = 0 then "0" else (shortest f magnitude).general)

end WasmShader.Text
