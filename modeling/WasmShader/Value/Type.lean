/-!
# Value types

The five WebAssembly number types. A value type can also be given by its number;
a number that names none of the five is kept as `reserved`, which prints and
compares but has no representation.
-/

namespace WasmShader

inductive ValueType
  | i32
  | i64
  | f32
  | f64
  | v128
  /-- A number that names no type. -/
  | reserved (code : UInt8)
  deriving DecidableEq, Repr, Inhabited

namespace ValueType

def ofCode (code : UInt8) : ValueType :=
  match code.toNat with
  | 0 => .i32
  | 1 => .i64
  | 2 => .f32
  | 3 => .f64
  | 4 => .v128
  | _ => .reserved code

def name : ValueType → String
  | .i32 => "i32"
  | .i64 => "i64"
  | .f32 => "f32"
  | .f64 => "f64"
  | .v128 => "v128"
  | .reserved code => "valuetype(" ++ toString code.toNat ++ ")"

def ofName? : String → Option ValueType
  | "i32" => some .i32
  | "i64" => some .i64
  | "f32" => some .f32
  | "f64" => some .f64
  | "v128" => some .v128
  | _ => none

def code : ValueType → UInt8
  | .i32 => 0
  | .i64 => 1
  | .f32 => 2
  | .f64 => 3
  | .v128 => 4
  | .reserved code => code

/-- One of the five types that have a representation. -/
def isKnown : ValueType → Bool
  | .reserved _ => false
  | _ => true

/-- The type a byte of the binary format stands for. Reference types and unused
bytes stand for none. -/
def ofByte? (byte : UInt8) : Option ValueType :=
  match byte.toNat with
  | 0x7f => some .i32
  | 0x7e => some .i64
  | 0x7d => some .f32
  | 0x7c => some .f64
  | 0x7b => some .v128
  | _ => none

/-- The text of a type byte of the binary format. -/
def byteName (byte : UInt8) : String :=
  match ofByte? byte with
  | some t => t.name
  | none =>
    match byte.toNat with
    | 0x70 => "funcref"
    | 0x6f => "externref"
    | _ => "unknown"

/-- The runs of equal types in a list, each with its length. -/
def runs : List ValueType → List (ValueType × Nat)
  | [] => []
  | t :: ts =>
    match runs ts with
    | (u, n) :: rest => if t = u then (u, n + 1) :: rest else (t, 1) :: (u, n) :: rest
    | [] => [(t, 1)]

def listText (types : List ValueType) : String :=
  "[" ++ " ".intercalate (types.map name) ++ "]"

end ValueType

/-- A function type: what a function or construct takes and gives. -/
structure Signature where
  params : List ValueType
  results : List ValueType
  deriving DecidableEq, Repr, Inhabited

def Signature.text (s : Signature) : String :=
  ValueType.listText s.params ++ " -> " ++ ValueType.listText s.results

end WasmShader
