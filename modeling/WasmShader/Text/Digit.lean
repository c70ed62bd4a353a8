/-!
# Digits

The value of a digit in bases up to 36, and the rule for underscores in numbers.
-/

namespace WasmShader.Text

def lower (c : Char) : Char := c.toLower

/-- The value of a digit or letter. -/
def digitValue? (c : Char) : Option Nat :=
  if '0' ≤ c && c ≤ '9' then some (c.toNat - 48)
  else if 'a' ≤ lower c && lower c ≤ 'z' then some ((lower c).toNat - 87)
  else none

def isDecimal (c : Char) : Bool := '0' ≤ c && c ≤ '9'

/-- A digit of the number, as the underscore rule counts them. -/
def isDigitOf (hex : Bool) (c : Char) : Bool :=
  isDecimal c || (hex && 'a' ≤ lower c && lower c ≤ 'f')

/-- What stood before a character: the start, a digit or base mark, an
underscore, or anything else. -/
inductive Before
  | start
  | digit
  | underscore
  | other
  deriving DecidableEq

/-- Every underscore stands between two digits, where a base mark counts as one. -/
def separates (hex : Bool) : Before → List Char → Bool
  | seen, [] => seen != .underscore
  | seen, c :: rest =>
    if isDigitOf hex c then separates hex .digit rest
    else if c = '_' then seen == .digit && separates hex .underscore rest
    else seen != .underscore && separates hex .other rest

/-- The underscores of a number stand where they may. -/
def underscoresFit (cs : List Char) : Bool :=
  let unsigned := match cs with
    | '-' :: rest | '+' :: rest => rest
    | _ => cs
  match unsigned with
  | '0' :: mark :: rest =>
    if lower mark = 'b' || lower mark = 'o' || lower mark = 'x' then
      separates (lower mark = 'x') .digit rest
    else separates false .start unsigned
  | _ => separates false .start unsigned

end WasmShader.Text
