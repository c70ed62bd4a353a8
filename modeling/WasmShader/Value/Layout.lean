import WasmShader.Failure
import WasmShader.Value.Basic
import WasmShader.Value.Triple
import WasmShader.Value.WordPair

/-!
# Values as words

Every value that crosses a frame boundary is stored as a fixed number of 32-bit
words: one for a 32-bit type, two for a 64-bit integer, four for a vector, and
two or three for a 64-bit float, as the hardware has that format or not. A
`Layout` makes that choice for one module.

A type without a representation cannot be laid out: the functions that are asked
about types (`wordsOf`, `size`, `offsets`, `encodeAll`, `decodeAll`) crash on one.
`words`, `sizeOf`, `offsetsFrom`, `encode` and `decode` are what they compute for all
other types; code that uses these has required its types to be known.
-/

namespace WasmShader

/-- The word representation of the value types in one module. -/
structure Layout where
  /-- The hardware has 64-bit floats. -/
  nativeF64 : Bool := false
  deriving DecidableEq, Repr, Inhabited

namespace Layout

/-- The number of words a value takes. -/
def words (l : Layout) : ValueType → Nat
  | .i32 | .f32 => 1
  | .i64 => 2
  | .f64 => if l.nativeF64 then 2 else 3
  | .v128 => 4
  | .reserved _ => 0

/-- The number of words a list of values takes. -/
def sizeOf (l : Layout) (types : List ValueType) : Nat :=
  types.foldr (fun t n => l.words t + n) 0

/-- Where each value of a list starts, the first at `start`. -/
def offsetsFrom (l : Layout) (start : Nat) : List ValueType → List Nat
  | [] => []
  | t :: ts => start :: l.offsetsFrom (start + l.words t) ts

/-- The words of a value. -/
def encode (l : Layout) (v : Value) : List UInt32 :=
  match v.type with
  | .i32 | .f32 => [v.lo.toUInt32]
  | .i64 => (WordPair.split v.lo).words
  | .f64 => if l.nativeF64 then (WordPair.split v.lo).words else (Triple.ofBits v.lo).words
  | .v128 => (WordPair.split v.lo).words ++ (WordPair.split v.hi).words
  | .reserved _ => []

/-- The value of a type held by the front of `words`; missing words count as
zero. -/
def decode (l : Layout) (t : ValueType) (words : List UInt32) : Value :=
  let w (i : Nat) : UInt32 := words.getD i 0
  match t with
  | .i32 | .f32 => ⟨t, (w 0).toUInt64, 0⟩
  | .i64 => ⟨t, (WordPair.mk (w 0) (w 1)).join, 0⟩
  | .f64 =>
    if l.nativeF64 then ⟨t, (WordPair.mk (w 0) (w 1)).join, 0⟩
    else ⟨t, (Triple.mk (w 0) (w 1) (w 2)).toBits, 0⟩
  | .v128 => ⟨t, (WordPair.mk (w 0) (w 1)).join, (WordPair.mk (w 2) (w 3)).join⟩
  | .reserved _ => .zero t

/-- A crash for a type without a representation. -/
def unknownType (t : ValueType) : Abort :=
  .crashed (some ("numeric: unknown value type " ++ toString t.code.toNat))

/-- Crashes on the first type without a representation. -/
def requireKnown (types : List ValueType) : Except Abort Unit :=
  match types.find? (!·.isKnown) with
  | some t => .error (unknownType t)
  | none => .ok ()

def wordsOf (l : Layout) (t : ValueType) : Except Abort Nat := do
  requireKnown [t]
  return l.words t

/-- The number of words of types that all have a representation. -/
def size (l : Layout) (types : List ValueType) : Except Abort Nat := do
  requireKnown types
  return l.sizeOf types

/-- Where each value starts and how many words all take. -/
def offsets (l : Layout) (types : List ValueType) : Except Abort (List Nat × Nat) := do
  requireKnown types
  return (l.offsetsFrom 0 types, l.sizeOf types)

/-- The words of a list of values, one after the other. -/
def encodeAll (l : Layout) (values : List Value) : Except Abort (List UInt32) := do
  requireKnown (values.map (·.type))
  return values.flatMap l.encode

/-- The values at the front of `words`, one after the other. -/
def decodeValues (l : Layout) : List ValueType → List UInt32 → List Value
  | [], _ => []
  | t :: ts, words => l.decode t words :: l.decodeValues ts (words.drop (l.words t))

/-- The values of the given types at the front of `words`, which has to hold all
of them. -/
def decodeAll (l : Layout) (types : List ValueType) (words : List UInt32) :
    Except Abort (List Value) := do
  requireKnown types
  let need := l.sizeOf types
  if words.length < need then
    Failure.raise (.plain s!"need {need} words, have {words.length}")
  else return l.decodeValues types words

end Layout

end WasmShader
