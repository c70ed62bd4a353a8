import WasmShader.Value.Type

/-!
# Opcodes

The single-byte opcodes of the format, sorted by what an instruction does.
Opcodes from `0x45` to `0xc4` are the numeric instructions; each is named by the
type in front of the point and a mnemonic behind it, and the two decide what it
takes and gives.
-/

namespace WasmShader

/-- The part of a numeric instruction's name behind the point. -/
inductive Mnemonic
  | eqz | eq | ne | ltS | ltU | gtS | gtU | leS | leU | geS | geU
  | lt | gt | le | ge
  | clz | ctz | popcnt
  | add | sub | mul | divS | divU | remS | remU | and | or | xor
  | shl | shrS | shrU | rotl | rotr
  | abs | neg | ceil | floor | trunc | nearest | sqrt | div | min | max | copysign
  | wrapI64 | truncF32S | truncF32U | truncF64S | truncF64U
  | extendI32S | extendI32U
  | convertI32S | convertI32U | convertI64S | convertI64U
  | demoteF64 | promoteF32
  | reinterpretF32 | reinterpretF64 | reinterpretI32 | reinterpretI64
  | extend8S | extend16S | extend32S
  deriving DecidableEq, Repr, Inhabited

namespace Mnemonic

def name : Mnemonic → String
  | .eqz => "eqz" | .eq => "eq" | .ne => "ne"
  | .ltS => "lt_s" | .ltU => "lt_u" | .gtS => "gt_s" | .gtU => "gt_u"
  | .leS => "le_s" | .leU => "le_u" | .geS => "ge_s" | .geU => "ge_u"
  | .lt => "lt" | .gt => "gt" | .le => "le" | .ge => "ge"
  | .clz => "clz" | .ctz => "ctz" | .popcnt => "popcnt"
  | .add => "add" | .sub => "sub" | .mul => "mul"
  | .divS => "div_s" | .divU => "div_u" | .remS => "rem_s" | .remU => "rem_u"
  | .and => "and" | .or => "or" | .xor => "xor"
  | .shl => "shl" | .shrS => "shr_s" | .shrU => "shr_u" | .rotl => "rotl" | .rotr => "rotr"
  | .abs => "abs" | .neg => "neg" | .ceil => "ceil" | .floor => "floor" | .trunc => "trunc"
  | .nearest => "nearest" | .sqrt => "sqrt" | .div => "div" | .min => "min" | .max => "max"
  | .copysign => "copysign"
  | .wrapI64 => "wrap_i64"
  | .truncF32S => "trunc_f32_s" | .truncF32U => "trunc_f32_u"
  | .truncF64S => "trunc_f64_s" | .truncF64U => "trunc_f64_u"
  | .extendI32S => "extend_i32_s" | .extendI32U => "extend_i32_u"
  | .convertI32S => "convert_i32_s" | .convertI32U => "convert_i32_u"
  | .convertI64S => "convert_i64_s" | .convertI64U => "convert_i64_u"
  | .demoteF64 => "demote_f64" | .promoteF32 => "promote_f32"
  | .reinterpretF32 => "reinterpret_f32" | .reinterpretF64 => "reinterpret_f64"
  | .reinterpretI32 => "reinterpret_i32" | .reinterpretI64 => "reinterpret_i64"
  | .extend8S => "extend8_s" | .extend16S => "extend16_s" | .extend32S => "extend32_s"

def all : List Mnemonic :=
  [.eqz, .eq, .ne, .ltS, .ltU, .gtS, .gtU, .leS, .leU, .geS, .geU, .lt, .gt, .le, .ge,
   .clz, .ctz, .popcnt, .add, .sub, .mul, .divS, .divU, .remS, .remU, .and, .or, .xor,
   .shl, .shrS, .shrU, .rotl, .rotr,
   .abs, .neg, .ceil, .floor, .trunc, .nearest, .sqrt, .div, .min, .max, .copysign,
   .wrapI64, .truncF32S, .truncF32U, .truncF64S, .truncF64U, .extendI32S, .extendI32U,
   .convertI32S, .convertI32U, .convertI64S, .convertI64U, .demoteF64, .promoteF32,
   .reinterpretF32, .reinterpretF64, .reinterpretI32, .reinterpretI64,
   .extend8S, .extend16S, .extend32S]

def ofName? (name : String) : Option Mnemonic :=
  all.find? (·.name == name)

/-- The type a conversion takes. -/
def source? : Mnemonic → Option ValueType
  | .wrapI64 | .convertI64S | .convertI64U | .reinterpretI64 => some .i64
  | .truncF32S | .truncF32U | .promoteF32 | .reinterpretF32 => some .f32
  | .truncF64S | .truncF64U | .demoteF64 | .reinterpretF64 => some .f64
  | .extendI32S | .extendI32U | .convertI32S | .convertI32U | .reinterpretI32 => some .i32
  | _ => none

def isComparison : Mnemonic → Bool
  | .eq | .ne | .lt | .gt | .le | .ge
  | .ltS | .ltU | .gtS | .gtU | .leS | .leU | .geS | .geU => true
  | _ => false

/-- Takes one operand of its own type. -/
def isUnary : Mnemonic → Bool
  | .clz | .ctz | .popcnt | .abs | .neg | .ceil | .floor | .trunc | .nearest | .sqrt
  | .extend8S | .extend16S | .extend32S => true
  | _ => false

end Mnemonic

/-- A numeric instruction: the type in front of its name and its mnemonic. -/
structure NumericOp where
  type : ValueType
  mnemonic : Mnemonic
  deriving DecidableEq, Repr, Inhabited

namespace NumericOp

def name (op : NumericOp) : String := op.type.name ++ "." ++ op.mnemonic.name

/-- A conversion takes the type it names; a test or comparison gives a 32-bit
truth value; all else stays within the instruction's type. -/
def signature (op : NumericOp) : Signature :=
  match op.mnemonic.source? with
  | some src => ⟨[src], [op.type]⟩
  | none =>
    if op.mnemonic = .eqz then ⟨[op.type], [.i32]⟩
    else if op.mnemonic.isComparison then ⟨[op.type, op.type], [.i32]⟩
    else if op.mnemonic.isUnary then ⟨[op.type], [op.type]⟩
    else ⟨[op.type, op.type], [op.type]⟩

def intTests (t : ValueType) : List NumericOp :=
  [.eqz, .eq, .ne, .ltS, .ltU, .gtS, .gtU, .leS, .leU, .geS, .geU].map (⟨t, ·⟩)

def floatTests (t : ValueType) : List NumericOp :=
  [.eq, .ne, .lt, .gt, .le, .ge].map (⟨t, ·⟩)

def intArithmetic (t : ValueType) : List NumericOp :=
  [.clz, .ctz, .popcnt, .add, .sub, .mul, .divS, .divU, .remS, .remU, .and, .or, .xor,
   .shl, .shrS, .shrU, .rotl, .rotr].map (⟨t, ·⟩)

def floatArithmetic (t : ValueType) : List NumericOp :=
  [.abs, .neg, .ceil, .floor, .trunc, .nearest, .sqrt, .add, .sub, .mul, .div, .min, .max,
   .copysign].map (⟨t, ·⟩)

def conversions : List NumericOp :=
  [⟨.i32, .wrapI64⟩, ⟨.i32, .truncF32S⟩, ⟨.i32, .truncF32U⟩, ⟨.i32, .truncF64S⟩,
   ⟨.i32, .truncF64U⟩, ⟨.i64, .extendI32S⟩, ⟨.i64, .extendI32U⟩, ⟨.i64, .truncF32S⟩,
   ⟨.i64, .truncF32U⟩, ⟨.i64, .truncF64S⟩, ⟨.i64, .truncF64U⟩, ⟨.f32, .convertI32S⟩,
   ⟨.f32, .convertI32U⟩, ⟨.f32, .convertI64S⟩, ⟨.f32, .convertI64U⟩, ⟨.f32, .demoteF64⟩,
   ⟨.f64, .convertI32S⟩, ⟨.f64, .convertI32U⟩, ⟨.f64, .convertI64S⟩, ⟨.f64, .convertI64U⟩,
   ⟨.f64, .promoteF32⟩, ⟨.i32, .reinterpretF32⟩, ⟨.i64, .reinterpretF64⟩,
   ⟨.f32, .reinterpretI32⟩, ⟨.f64, .reinterpretI64⟩,
   ⟨.i32, .extend8S⟩, ⟨.i32, .extend16S⟩, ⟨.i64, .extend8S⟩, ⟨.i64, .extend16S⟩,
   ⟨.i64, .extend32S⟩]

/-- The numeric instructions in the order of their opcodes. -/
def table : Array NumericOp :=
  (intTests .i32 ++ intTests .i64 ++ floatTests .f32 ++ floatTests .f64
    ++ intArithmetic .i32 ++ intArithmetic .i64 ++ floatArithmetic .f32 ++ floatArithmetic .f64
    ++ conversions).toArray

def ofOpcode? (opcode : UInt8) : Option NumericOp :=
  if opcode < 0x45 then none else table[opcode.toNat - 0x45]?

end NumericOp

/-- What an instruction does, read off its opcode. -/
inductive Operation
  | unreachable | nop | block | loop | ifElse | elseMark | endMark
  | br | brIf | brTable | ret | call | callIndirect
  | drop | select
  | localGet | localSet | localTee | globalGet | globalSet
  /-- A load from or a store to linear memory. -/
  | memoryAccess
  | memorySize | memoryGrow
  | i32Const | i64Const | f32Const | f64Const
  /-- The mark in front of a vector instruction. -/
  | vector
  | numeric (op : NumericOp)
  | unknown
  deriving DecidableEq, Repr, Inhabited

namespace Operation

def ofOpcode (opcode : UInt8) : Operation :=
  match opcode.toNat with
  | 0x00 => .unreachable
  | 0x01 => .nop
  | 0x02 => .block
  | 0x03 => .loop
  | 0x04 => .ifElse
  | 0x05 => .elseMark
  | 0x0b => .endMark
  | 0x0c => .br
  | 0x0d => .brIf
  | 0x0e => .brTable
  | 0x0f => .ret
  | 0x10 => .call
  | 0x11 => .callIndirect
  | 0x1a => .drop
  | 0x1b => .select
  | 0x20 => .localGet
  | 0x21 => .localSet
  | 0x22 => .localTee
  | 0x23 => .globalGet
  | 0x24 => .globalSet
  | 0x3f => .memorySize
  | 0x40 => .memoryGrow
  | 0x41 => .i32Const
  | 0x42 => .i64Const
  | 0x43 => .f32Const
  | 0x44 => .f64Const
  | 0xfd => .vector
  | n =>
    if 0x28 ≤ n && n ≤ 0x3e then .memoryAccess
    else match NumericOp.ofOpcode? opcode with
      | some op => .numeric op
      | none => .unknown

/-- Control never passes on to the next instruction. -/
def isTerminal : Operation → Bool
  | .br | .brTable | .ret | .unreachable => true
  | _ => false

end Operation

end WasmShader
