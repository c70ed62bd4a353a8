import WasmShader.Text.Digit

/-!
# Reading integers

Integers with an optional base mark: `0x` for sixteen, `0o` or a leading zero
for eight, `0b` for two. Underscores may separate digits. A number is read from
left to right, so the first digit that takes it out of range is reported before
a character further right that is no digit.
-/

namespace WasmShader.Text

/-- Why a text is not a number of the wanted range. -/
inductive NumberFault
  | invalidSyntax
  | outOfRange
  deriving DecidableEq, Repr

/-- Reads the digits of a number not above `limit`, starting from `acc`.
Underscores are skipped. -/
def readDigits (base limit : Nat) : Nat → List Char → Except NumberFault Nat
  | acc, [] => .ok acc
  | acc, c :: rest =>
    if c = '_' then readDigits base limit acc rest
    else match digitValue? c with
      | none => .error .invalidSyntax
      | some d =>
        if base ≤ d then .error .invalidSyntax
        else if limit < acc * base + d then .error .outOfRange
        else readDigits base limit (acc * base + d) rest

/-- The base a number's mark names, and its digits. -/
def splitBase (cs : List Char) : Nat × List Char :=
  match cs with
  | '0' :: mark :: d :: rest =>
    if lower mark = 'b' then (2, d :: rest)
    else if lower mark = 'o' then (8, d :: rest)
    else if lower mark = 'x' then (16, d :: rest)
    else (8, mark :: d :: rest)
  | '0' :: rest => (8, rest)
  | _ => (10, cs)

/-- Reads a number below two to the power `bits`. -/
def readUnsigned (bits : Nat) (cs : List Char) : Except NumberFault Nat :=
  if cs.isEmpty then .error .invalidSyntax
  else
    let (base, digits) := splitBase cs
    match readDigits base ((1 <<< bits) - 1) 0 digits with
    | .error e => .error e
    | .ok n => if cs.contains '_' && !underscoresFit cs then .error .invalidSyntax else .ok n

/-- Reads a number with an optional sign that fits `bits` bits as a signed
number. -/
def readSigned (bits : Nat) (cs : List Char) : Except NumberFault Int :=
  let (negative, digits) := match cs with
    | '-' :: rest => (true, rest)
    | '+' :: rest => (false, rest)
    | _ => (false, cs)
  match readUnsigned bits digits with
  | .error e => .error e
  | .ok n =>
    if negative then if 1 <<< (bits - 1) < n then .error .outOfRange else .ok (-(n : Int))
    else if 1 <<< (bits - 1) ≤ n then .error .outOfRange else .ok n

end WasmShader.Text
