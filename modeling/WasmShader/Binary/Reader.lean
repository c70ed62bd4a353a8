import WasmShader.Binary.Instr
import WasmShader.Binary.Module

/-!
# Reading modules

`Module.parse` reads the binary format: a header, then sections in ascending
order with custom sections anywhere between them. Element, data and data-count
sections are passed over. Bytes left over at the end of a section are ignored.
What fails is noted with the section and the entry it failed in.
-/

namespace WasmShader.Binary

open Leb128 (readU32)

/-- Reads `n` entries, the first of them numbered `i`. -/
def readEntries (each : Reader α) : (i n : Nat) → Reader (List α)
  | _, 0 => pure []
  | i, n + 1 => do
    let x ← Reader.noting ("entry " ++ toString i) each
    return x :: (← readEntries each (i + 1) n)

/-- Reads a counted list. No entry is empty, so a count above the number of
bytes left is refused at once. -/
def readVector (each : Reader α) : Reader (List α) := do
  let count ← readU32
  if (← Reader.remaining) < count.toNat then
    throw (.plain ("vector length " ++ toString count.toNat ++ " exceeds section"))
  readEntries each 0 count.toNat

/-- Reads a counted stretch of bytes. -/
def readName : Reader Bytes := do
  Reader.take (← readU32).toNat

def readFuncType : Reader FuncType := do
  let form ← Reader.byte
  if form ≠ 0x60 then
    throw (.plain ("expected functype (0x60), got " ++ Text.hexLiteral 2 form.toNat))
  let params ← readVector Reader.byte
  return ⟨params, ← readVector Reader.byte⟩

def readLimits : Reader Limits := do
  let flag ← Reader.byte
  let min ← readU32
  if flag = 0 then return ⟨min.toUInt64, none⟩
  else if flag = 1 then return ⟨min.toUInt64, some (← readU32).toUInt64⟩
  else throw (.plain ("unsupported limits flag " ++ Text.hexLiteral 2 flag.toNat))

def readTableType : Reader TableType := do
  let elem ← Reader.byte
  return ⟨elem, ← readLimits⟩

def readGlobalType : Reader GlobalType := do
  let type ← Reader.byte
  let mutability ← Reader.byte
  if 1 < mutability then
    throw (.plain ("invalid mutability " ++ Text.hexLiteral 2 mutability.toNat))
  return ⟨type, mutability = 1⟩

def readImport : Reader Import := do
  let module ← readName
  let name ← readName
  let kind ← Reader.byte
  if kind = 0 then return ⟨module, name, .func (← readU32)⟩
  else if kind = 1 then return ⟨module, name, .table (← readTableType)⟩
  else if kind = 2 then return ⟨module, name, .memory (← readLimits)⟩
  else if kind = 3 then return ⟨module, name, .global (← readGlobalType)⟩
  else throw (.plain ("unknown import kind: " ++ toString kind.toNat))

/-- Passes over the immediate of a constant instruction. -/
def skipConstant (opcode : UInt8) : Reader Unit := do
  match Operation.ofOpcode opcode with
  | .i32Const => let _ ← Leb128.readS32
  | .i64Const => let _ ← Leb128.readS64
  | .f32Const => let _ ← Reader.fixed 4
  | .f64Const => let _ ← Reader.fixed 8
  | .globalGet => let _ ← readU32
  | _ =>
    throw (.plain ("unsupported constant expression opcode " ++ Text.hexLiteral 2 opcode.toNat))

/-- Passes over one constant instruction and its end. -/
def skipConstExpr : Reader Unit := do
  skipConstant (← Reader.byte)
  if (← Reader.byte) ≠ 0x0b then throw (.plain "constant expression not terminated")

/-- The bytes that a reader passes over. -/
def consumed (r : Reader Unit) : Reader Bytes := fun bs => do
  let (_, rest) ← r bs
  return (bs.take (bs.length - rest.length), rest)

def readGlobal : Reader Global := do
  let type ← readGlobalType
  return ⟨type, ← consumed skipConstExpr⟩

def readExport : Reader Export := do
  let name ← readName
  let kind ← Reader.byte
  if 3 < kind then throw (.plain ("invalid export kind: " ++ Text.hexLiteral 2 kind.toNat))
  return ⟨name, kind, ← readU32⟩

def readLocalRun : Reader LocalRun := do
  let count ← readU32
  return ⟨count, ← Reader.byte⟩

def maxLocals : Nat := 50000

def readFuncBody : Reader FuncBody := do
  let size ← readU32
  let data ← Reader.take size.toNat
  let (locals, code) ← readVector readLocalRun data
  let total := locals.foldl (fun n r => n + r.count.toNat) 0
  if maxLocals < total then throw (.plain ("too many locals: " ++ toString total))
  return ⟨locals, code⟩

/-! ## Sections -/

def sectionNames : List String :=
  ["custom", "type", "import", "function", "table", "memory", "global", "export", "start",
   "element", "code", "data", "data count"]

def sectionName (id : UInt8) : String :=
  sectionNames.getD id.toNat (Text.hexLiteral 2 id.toNat)

/-- The place of a section in a module: the data count comes before the code. -/
def sectionOrder (id : UInt8) : Nat :=
  match id.toNat with
  | 12 => 10
  | 10 => 11
  | 11 => 12
  | n => n

/-- Reads the body of a section into a module. -/
def readSection (id : UInt8) (m : Module) : Reader Module := do
  match id.toNat with
  | 1 => return { m with types := m.types ++ (← readVector readFuncType) }
  | 2 => return { m with imports := m.imports ++ (← readVector readImport) }
  | 3 => return { m with funcs := m.funcs ++ (← readVector readU32) }
  | 4 => return { m with tables := m.tables ++ (← readVector readTableType) }
  | 5 => return { m with memories := m.memories ++ (← readVector readLimits) }
  | 6 => return { m with globals := m.globals ++ (← readVector readGlobal) }
  | 7 => return { m with exports := m.exports ++ (← readVector readExport) }
  | 8 => return { m with start := some (← readU32) }
  | 10 => return { m with code := m.code ++ (← readVector readFuncBody) }
  | _ => return m

/-- Reads sections to the end of the bytes, the last one read being `last`. A
section takes at least two bytes, so `fuel` need not exceed their number. -/
def readSections : (fuel : Nat) → (last : UInt8) → Module → Bytes → Except Failure Module
  | _, _, m, [] => .ok m
  | 0, _, m, _ => .ok m
  | fuel + 1, last, m, id :: bs => do
    let number := toString id.toNat
    let (size, bs) ← Reader.noting ("section " ++ number ++ " size") readU32 bs
    let (body, bs) ← Reader.noting ("section " ++ number ++ " data") (Reader.take size.toNat) bs
    if id = 0 then readSections fuel last m bs
    else if sectionOrder id ≤ sectionOrder last then
      .error (.plain ("section " ++ number ++ " appears out of order"))
    else if 12 < id then .error (.plain ("unknown section ID: " ++ Text.hexLiteral 2 id.toNat))
    else
      let (m, _) ← Reader.noting (sectionName id ++ " section") (readSection id m) body
      readSections fuel id m bs

def magic : Nat := 0x6d736100

def version : Nat := 1

def readHeader : Reader Unit := do
  if (← Reader.noting "header" (Instr.readFixed 4)) ≠ magic then
    throw (.plain "invalid wasm magic number")
  if (← Reader.noting "header" (Instr.readFixed 4)) ≠ version then
    throw (.plain "invalid wasm version")

/-- Reads a module. Every declared function needs a body. -/
def Module.parse (data : Bytes) : Except Failure Module := do
  let (_, rest) ← readHeader data
  let m ← readSections rest.length 0 {} rest
  if m.funcs.length ≠ m.code.length then
    .error (.plain ("function count " ++ toString m.funcs.length
      ++ " does not match code count " ++ toString m.code.length))
  else .ok m

end WasmShader.Binary
