import WasmShader.Binary.Leb128
import WasmShader.Binary.Opcode
import WasmShader.Text.Hex

/-!
# Instructions

A flat instruction is an opcode and an immediate. `Instr.decodeAll` reads a
stretch of code and `Instr.encodeAll` writes one; the writer goes by the
immediate alone, so it is defined for every pair of opcode and immediate.
-/

namespace WasmShader

/-- What follows the opcode of an instruction. -/
inductive Immediate
  | none
  /-- A block type: `-64` for nothing, `-1` to `-5` for one value, and from zero
  up the index of a function type. -/
  | block (type : Int32)
  | branch (depth : UInt32)
  | branchTable (labels : List UInt32) (fallback : UInt32)
  | call (func : UInt32)
  | callIndirect (type table : UInt32)
  | localVar (index : UInt32)
  | globalVar (index : UInt32)
  | memory (align offset : UInt32)
  | memoryIndex (index : UInt32)
  | i32 (value : Int32)
  | i64 (value : Int64)
  | f32 (bits : UInt32)
  | f64 (bits : UInt64)
  /-- Sixteen bytes, the first in the lowest bits of `lo`. -/
  | v128 (lo hi : UInt64)
  deriving DecidableEq, Repr, Inhabited

structure Instr where
  opcode : UInt8
  imm : Immediate := .none
  deriving DecidableEq, Repr, Inhabited

/-- The bytes of a number, the lowest first. -/
def littleEndian : (count n : Nat) → Bytes
  | 0, _ => []
  | count + 1, n => (n % 256).toUInt8 :: littleEndian count (n / 256)

/-- The number with the given bytes, the lowest first. -/
def ofLittleEndian : Bytes → Nat
  | [] => 0
  | b :: bs => b.toNat + 256 * ofLittleEndian bs

namespace Instr

def operation (i : Instr) : Operation := .ofOpcode i.opcode

/-- The function a direct call targets. -/
def callTarget? (i : Instr) : Option UInt32 :=
  match i.operation, i.imm with
  | .call, .call func => some func
  | _, _ => Option.none

def isIndirectCall (i : Instr) : Bool := i.operation = .callIndirect

def isVectorConst (i : Instr) : Bool :=
  match i.operation, i.imm with
  | .vector, .v128 _ _ => true
  | _, _ => false

/-- The only vector instruction: a constant. -/
def vectorConst : UInt32 := 0x0c

def readLabels : Nat → Reader (List UInt32)
  | 0 => pure []
  | n + 1 => do
    let label ← Leb128.readU32
    return label :: (← readLabels n)

def readBranchTable : Reader Immediate := do
  let count ← Leb128.readU32
  if (← Reader.remaining) < count.toNat then
    throw (.plain ("br_table count " ++ toString count.toNat ++ " exceeds body"))
  let labels ← readLabels count.toNat
  let fallback ← Leb128.readU32
  return .branchTable labels fallback

/-- Reads a number of `n` bytes. -/
def readFixed (n : Nat) : Reader Nat := do
  return ofLittleEndian (← Reader.fixed n)

/-- Reads the immediate of an opcode; what fails is noted with the opcode,
unless the opcode itself is not one of the format. -/
def readImmediate (opcode : UInt8) : Reader Immediate :=
  let note (r : Reader Immediate) : Reader Immediate :=
    Reader.noting ("opcode " ++ Text.hexLiteral 2 opcode.toNat) r
  match Operation.ofOpcode opcode with
  | .block | .loop | .ifElse => note do return .block (← Leb128.readS32)
  | .br | .brIf => note do return .branch (← Leb128.readU32)
  | .brTable => note readBranchTable
  | .call => note do return .call (← Leb128.readU32)
  | .callIndirect => note do
    let type ← Leb128.readU32
    return .callIndirect type (← Leb128.readU32)
  | .localGet | .localSet | .localTee => note do return .localVar (← Leb128.readU32)
  | .globalGet | .globalSet => note do return .globalVar (← Leb128.readU32)
  | .memoryAccess => note do
    let align ← Leb128.readU32
    return .memory align (← Leb128.readU32)
  | .memorySize | .memoryGrow => note do return .memoryIndex (← Leb128.readU32)
  | .i32Const => note do return .i32 (← Leb128.readS32)
  | .i64Const => note do return .i64 (← Leb128.readS64)
  | .f32Const => note do return .f32 (← readFixed 4).toUInt32
  | .f64Const => note do return .f64 (← readFixed 8).toUInt64
  | .vector => do
    let sub ← Reader.noting ("opcode " ++ Text.hexLiteral 2 opcode.toNat) Leb128.readU32
    if sub ≠ vectorConst then
      throw (.plain ("unsupported vector sub-opcode " ++ Text.hexLiteral 1 sub.toNat))
    note do
      let bytes ← Reader.fixed 16
      return .v128 (ofLittleEndian (bytes.take 8)).toUInt64 (ofLittleEndian (bytes.drop 8)).toUInt64
  | .unreachable | .nop | .elseMark | .endMark | .ret | .drop | .select | .numeric _ => pure .none
  | .unknown => throw (.plain ("unknown opcode " ++ Text.hexLiteral 2 opcode.toNat))

def read : Reader Instr := do
  let opcode ← Reader.byte
  return ⟨opcode, ← readImmediate opcode⟩

/-- Reads instructions to the end of the bytes. Every instruction takes at least
a byte, so `fuel` need not exceed their number. -/
def readAll : (fuel : Nat) → Bytes → Except Failure (List Instr)
  | _, [] => .ok []
  | 0, _ => .ok []
  | fuel + 1, bs => do
    let (instr, rest) ← read bs
    return instr :: (← readAll fuel rest)

def decodeAll (code : Bytes) : Except Failure (List Instr) :=
  readAll code.length code

def encodeImmediate : Immediate → Bytes
  | .none => []
  | .block type => Leb128.writeS32 type
  | .branch depth => Leb128.writeU32 depth
  | .branchTable labels fallback =>
    Leb128.writeNat labels.length ++ labels.flatMap Leb128.writeU32 ++ Leb128.writeU32 fallback
  | .call func => Leb128.writeU32 func
  | .callIndirect type table => Leb128.writeU32 type ++ Leb128.writeU32 table
  | .localVar index | .globalVar index | .memoryIndex index => Leb128.writeU32 index
  | .memory align offset => Leb128.writeU32 align ++ Leb128.writeU32 offset
  | .i32 value => Leb128.writeS32 value
  | .i64 value => Leb128.writeS64 value
  | .f32 bits => littleEndian 4 bits.toNat
  | .f64 bits => littleEndian 8 bits.toNat
  | .v128 lo hi => Leb128.writeU32 vectorConst ++ littleEndian 8 lo.toNat ++ littleEndian 8 hi.toNat

def encode (i : Instr) : Bytes := i.opcode :: encodeImmediate i.imm

def encodeAll (instrs : List Instr) : Bytes := instrs.flatMap encode

end Instr

end WasmShader
