import WasmShader.Binary.Leb128
import WasmShader.Value.Type

/-!
# Binary modules

The part of a WebAssembly module that compiling functions needs: types, imports,
function declarations, tables, memories, globals, exports, the start function
and code. Names are bytes, since the format does not promise text. Value types
are the bytes of the format, reference types included.
-/

namespace WasmShader

namespace Binary

structure FuncType where
  params : Bytes
  results : Bytes
  deriving DecidableEq, Repr, Inhabited

structure Limits where
  min : UInt64
  max : Option UInt64 := none
  deriving DecidableEq, Repr, Inhabited

structure TableType where
  elem : UInt8
  limits : Limits
  deriving DecidableEq, Repr, Inhabited

structure GlobalType where
  type : UInt8
  isMutable : Bool
  deriving DecidableEq, Repr, Inhabited

/-- What an import brings in. -/
inductive ImportDesc
  | func (typeIdx : UInt32)
  | table (type : TableType)
  | memory (limits : Limits)
  | global (type : GlobalType)
  /-- A kind without a description: one the format does not have, or one whose
  description is missing. -/
  | bare (kind : UInt8)
  deriving DecidableEq, Repr, Inhabited

/-- The byte of an import's kind. -/
def ImportDesc.kind : ImportDesc → UInt8
  | .func _ => 0
  | .table _ => 1
  | .memory _ => 2
  | .global _ => 3
  | .bare kind => kind

structure Import where
  module : Bytes
  name : Bytes
  desc : ImportDesc
  deriving DecidableEq, Repr, Inhabited

/-- A global with its initialiser: the bytes of a constant expression, its end
included. -/
structure Global where
  type : GlobalType
  init : Bytes
  deriving DecidableEq, Repr, Inhabited

structure Export where
  name : Bytes
  kind : UInt8
  idx : UInt32
  deriving DecidableEq, Repr, Inhabited

/-- The kind byte of an exported function. -/
def Export.funcKind : UInt8 := 0

/-- A run of locals of one type. -/
structure LocalRun where
  count : UInt32
  type : UInt8
  deriving DecidableEq, Repr, Inhabited

structure FuncBody where
  locals : List LocalRun
  code : Bytes
  deriving DecidableEq, Repr, Inhabited

structure Module where
  types : List FuncType := []
  imports : List Import := []
  /-- The type index of each defined function. -/
  funcs : List UInt32 := []
  tables : List TableType := []
  memories : List Limits := []
  globals : List Global := []
  exports : List Export := []
  start : Option UInt32 := none
  code : List FuncBody := []
  deriving DecidableEq, Repr, Inhabited

namespace Module

/-- The type indices of the imported functions. Defined functions are numbered
after them. -/
def importedFuncs (m : Module) : List UInt32 :=
  m.imports.filterMap fun i => match i.desc with
    | .func typeIdx => some typeIdx
    | _ => none

def numImportedFuncs (m : Module) : Nat := m.imports.countP (·.desc.kind == 0)

def numImportedMemories (m : Module) : Nat := m.imports.countP (·.desc.kind == 2)

def numImportedGlobals (m : Module) : Nat := m.imports.countP (·.desc.kind == 3)

/-- The type of the function at an index, imported functions first. -/
def funcTypeAt? (m : Module) (idx : Nat) : Option FuncType := do
  let typeIdx ← (m.importedFuncs ++ m.funcs)[idx]?
  m.types[typeIdx.toNat]?

/-- The index of the function exported under a name. -/
def exportedFunc? (m : Module) (name : Bytes) : Option UInt32 :=
  (m.exports.find? fun e => e.kind == Export.funcKind && e.name == name).map (·.idx)

end Module

end Binary

end WasmShader
