import WasmShader.Failure
import WasmShader.Text.Blank
import WasmShader.Text.Integer
import WasmShader.Text.Quoted
import WasmShader.Text.Real
import WasmShader.Value.Basic

/-!
# Arguments from text

Arguments are given apart by commas, each read as the type of its parameter. An
integer may be written signed or unsigned.
-/

namespace WasmShader.Session

open Text

/-- The failure to read a number. -/
def numberFailure (reader : String) (text : List Char) (fault : NumberFault) : Failure :=
  let why := match fault with
    | .invalidSyntax => "invalid syntax"
    | .outOfRange => "value out of range"
  .plain ("strconv." ++ reader ++ ": parsing " ++ quote (String.ofList text) ++ ": " ++ why)

/-- Reads an integer of a number of bits, as a signed number if it is one and
otherwise as an unsigned one. -/
def readInteger (bits : Nat) (text : List Char) : Except Failure Int :=
  match readSigned bits text with
  | .ok n => .ok n
  | .error _ =>
    match readUnsigned bits text with
    | .ok n => .ok n
    | .error e => .error (numberFailure "ParseUint" text e)

/-- Reads the pattern of a float. -/
def readPattern (f : FloatFormat) (text : List Char) : Except Failure Nat :=
  (readFloat f text).mapError (numberFailure "ParseFloat" text)

def readValue (text : List Char) (t : ValueType) : Except Failure Value :=
  match t with
  | .i32 => do return .ofI32 (.ofInt (← readInteger 32 text))
  | .i64 => do return .ofI64 (.ofInt (← readInteger 64 text))
  | .f32 => do return .ofBits32 (← readPattern .binary32 text).toUInt32
  | .f64 => do return .ofBits64 (← readPattern .binary64 text).toUInt64
  | .v128 | .reserved _ => .error (.plain ("cannot pass " ++ t.name ++ " from the command line"))

/-- Reads values in order, the first being argument `i`. -/
def readValues : (i : Nat) → List (List Char) → List ValueType → Except Failure (List Value)
  | i, text :: texts, t :: ts => do
    match readValue (trim text) t with
    | .error e => throw (.noted ("argument " ++ toString i) e)
    | .ok v => return v :: (← readValues (i + 1) texts ts)
  | _, _, _ => return []

/-- Reads arguments of the given types. A blank text has no arguments. -/
def readArgs (s : String) (types : List ValueType) : Except Failure (List Value) :=
  let chars := s.toList
  let parts := if (trim chars).isEmpty then [] else fields chars
  if parts.length ≠ types.length then
    .error (.plain ("got " ++ toString parts.length ++ " arguments, want "
      ++ toString types.length ++ " (" ++ ValueType.listText types ++ ")"))
  else readValues 0 parts types

end WasmShader.Session
