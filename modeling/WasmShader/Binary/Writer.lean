import WasmShader.Binary.Instr
import WasmShader.Binary.Module

/-!
# Writing modules

`Module.encode` writes a module in its one canonical form: sections in order,
empty ones left out, every number in its shortest groups. It is defined for all
modules; `Module.encodeChecked` crashes on an import whose description is
missing.
-/

namespace WasmShader.Binary

open Leb128 (writeNat writeU32)

/-- A counted list. -/
def writeVector (each : α → Bytes) (xs : List α) : Bytes :=
  writeNat xs.length ++ xs.flatMap each

def writeName (name : Bytes) : Bytes := writeNat name.length ++ name

/-- Bounds are written with 32 bits. -/
def writeLimits (l : Limits) : Bytes :=
  match l.max with
  | some max => 1 :: (writeU32 l.min.toUInt32 ++ writeU32 max.toUInt32)
  | none => 0 :: writeU32 l.min.toUInt32

def writeTableType (t : TableType) : Bytes := t.elem :: writeLimits t.limits

def writeGlobalType (g : GlobalType) : Bytes := [g.type, if g.isMutable then 1 else 0]

def writeFuncType (t : FuncType) : Bytes :=
  0x60 :: (writeVector (fun b => [b]) t.params ++ writeVector (fun b => [b]) t.results)

def writeImportDesc : ImportDesc → Bytes
  | .func typeIdx => 0 :: writeU32 typeIdx
  | .table type => 1 :: writeTableType type
  | .memory limits => 2 :: writeLimits limits
  | .global type => 3 :: writeGlobalType type
  | .bare kind => [kind]

def writeImport (i : Import) : Bytes :=
  writeName i.module ++ writeName i.name ++ writeImportDesc i.desc

def writeGlobal (g : Global) : Bytes := writeGlobalType g.type ++ g.init

def writeExport (e : Export) : Bytes := writeName e.name ++ e.kind :: writeU32 e.idx

def writeFuncBody (b : FuncBody) : Bytes :=
  writeName (writeVector (fun r => writeU32 r.count ++ [r.type]) b.locals ++ b.code)

def writeSection (id : UInt8) (body : Bytes) : Bytes := id :: writeName body

/-- The section of a list, left out when the list is empty. -/
def writeList (id : UInt8) (each : α → Bytes) (xs : List α) : Bytes :=
  if xs.isEmpty then [] else writeSection id (writeVector each xs)

def Module.encode (m : Module) : Bytes :=
  [0x00, 0x61, 0x73, 0x6d, 0x01, 0x00, 0x00, 0x00]
    ++ writeList 1 writeFuncType m.types
    ++ writeList 2 writeImport m.imports
    ++ writeList 3 writeU32 m.funcs
    ++ writeList 4 writeTableType m.tables
    ++ writeList 5 writeLimits m.memories
    ++ writeList 6 writeGlobal m.globals
    ++ writeList 7 writeExport m.exports
    ++ (match m.start with
        | some idx => writeSection 8 (writeU32 idx)
        | none => [])
    ++ writeList 10 writeFuncBody m.code

/-- A table, memory or global import without its description. -/
def ImportDesc.isIncomplete : ImportDesc → Bool
  | .bare kind => 1 ≤ kind && kind ≤ 3
  | _ => false

/-- The bytes of a module whose imports are complete. -/
def Module.encodeChecked (m : Module) : Except Abort Bytes :=
  if m.imports.any (·.desc.isIncomplete) then .error .outOfBounds else .ok m.encode

end WasmShader.Binary
