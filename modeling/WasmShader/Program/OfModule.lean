import WasmShader.Program.Basic
import WasmShader.Text.Utf8

/-!
# Programs from modules

`Program.ofModule` builds the program of a binary module. Code that does not
decode or nest is a failure of the whole module; a type outside the supported
subset is a failure of the functions that use it.
-/

namespace WasmShader

namespace Program

def typeEntry (i : Nat) (t : Binary.FuncType) : TypeEntry :=
  match convertSignature t with
  | .ok sig => ⟨sig, none⟩
  | .error e =>
    ⟨⟨[], []⟩,
      some (.unsupported .program "" ("type " ++ toString i ++ ": " ++ e.message))⟩

def typeAt (types : List TypeEntry) (idx : UInt32) : Except Failure TypeEntry :=
  match types[idx.toNat]? with
  | some t => .ok t
  | none => .error (.malformed .program ("type index " ++ toString idx.toNat ++ " out of range"))

/-- The imported functions, numbered from `index`. A module with imported
globals is not supported. -/
def importsOf (types : List TypeEntry) :
    (index : Nat) → List Binary.Import → Except Failure (List Import)
  | _, [] => .ok []
  | index, i :: rest =>
    match i.desc with
    | .func typeIdx => do
      let t ← typeAt types typeIdx
      let more ← importsOf types (index + 1) rest
      return ⟨index, Text.ofBytes i.module, Text.ofBytes i.name, t.sig, t.err⟩ :: more
    | .global _ => .error (importedGlobal i)
    | .bare kind => if kind = 3 then .error (importedGlobal i) else importsOf types index rest
    | .table _ | .memory _ => importsOf types index rest
where
  importedGlobal (i : Binary.Import) : Failure :=
    .unsupported .program ""
      ("imported global " ++ Text.ofBytes i.module ++ "." ++ Text.ofBytes i.name)

/-- The value of a constant immediate. -/
def constant? : Immediate → Option Value
  | .i32 v => some (.ofI32 v)
  | .i64 v => some (.ofI64 v)
  | .f32 bits => some (.ofBits32 bits)
  | .f64 bits => some (.ofBits64 bits)
  | _ => none

/-- The value of an initialiser: a single constant of the wanted type. -/
def constValue (init : Bytes) (type : ValueType) : Except Failure Value := do
  let instrs ← Instr.decodeAll init
  let single : Failure := .plain "initializer is not a single constant"
  match instrs with
  | [first, last] =>
    if last.operation ≠ .endMark then .error single
    else match constant? first.imm with
      | none =>
        .error (.plain ("unsupported initializer opcode " ++ Text.hexLiteral 2 first.opcode.toNat))
      | some v =>
        if v.type ≠ type then
          .error (.plain
            ("initializer of type " ++ v.type.name ++ " for " ++ type.name ++ " global"))
        else .ok v
  | _ => .error single

/-- The globals, numbered from `i`. -/
def globalsOf : (i : Nat) → List Binary.Global → Except Failure (List Global)
  | _, [] => .ok []
  | i, g :: rest =>
    match ValueType.ofByte? g.type.type with
    | none =>
      .error (.unsupported .program ""
        ("global " ++ toString i ++ " of type " ++ ValueType.byteName g.type.type))
    | some t =>
      match constValue g.init t with
      | .error e =>
        .error (.caused { phase := .program, kind := .malformed, path := ["global", toString i] } e)
      | .ok init => return ⟨t, g.type.isMutable, init⟩ :: (← globalsOf (i + 1) rest)

/-- The symbols a function is exported under. -/
def exportSymbols (m : Binary.Module) (idx : Nat) : List Symbol :=
  (m.exports.filter fun e => e.kind == Binary.Export.funcKind && e.idx.toNat == idx).map
    fun e => ⟨e.name⟩

/-- The declared locals, and the type byte that ended them if one has no value
type. -/
def expandLocals : List Binary.LocalRun → List ValueType × Option UInt8
  | [] => ([], none)
  | run :: rest =>
    match ValueType.ofByte? run.type with
    | none => ([], some run.type)
    | some t =>
      let (more, bad) := expandLocals rest
      (List.replicate run.count.toNat t ++ more, bad)

/-- The defined function at a place of the module. -/
def functionOf (m : Binary.Module) (types : List TypeEntry) (base pos : Nat) (typeIdx : UInt32)
    (code : Binary.FuncBody) : Except Abort Function := do
  let index := base + pos
  let exports := exportSymbols m index
  let symbol := exports.headD (.numbered index)
  let name := symbol.text
  let t ← liftFailure (typeAt types typeIdx)
  if t.err.isSome then
    return { index, pos, symbol, exports, type := t.sig, locals := [],
             body := .error (.unsupported .program name "signature uses reference types") }
  let (declared, bad) := expandLocals code.locals
  let locals := t.sig.params ++ declared
  match bad with
  | some byte =>
    return { index, pos, symbol, exports, type := t.sig, locals,
             body := .error
               (.unsupported .program name ("local of type " ++ ValueType.byteName byte)) }
  | none =>
    let malformed (e : Failure) : Abort :=
      .failed (.caused { phase := .program, kind := .malformed, func := name } e)
    let instrs ← (Instr.decodeAll code.code).mapError malformed
    let body ← match Body.parse m.types instrs with
      | .ok body => pure body
      | .error (.failed e) => .error (malformed e)
      | .error crash => .error crash
    let all := Body.instrs body
    return { index, pos, symbol, exports, type := t.sig, locals, body := .ok body
             calls := ← Body.callSites body
             indirectCalls := all.countP (·.operation = .callIndirect)
             memoryOps := all.countP fun i =>
               i.operation = .memorySize || i.operation = .memoryGrow }

/-- The defined functions, the first of them at place `pos`. -/
def functionsOf (m : Binary.Module) (types : List TypeEntry) (base : Nat) :
    (pos : Nat) → List (UInt32 × Binary.FuncBody) → Except Abort (List Function)
  | _, [] => .ok []
  | pos, (typeIdx, code) :: rest => do
    let f ← functionOf m types base pos typeIdx code
    return f :: (← functionsOf m types base (pos + 1) rest)

def ofModule (m : Binary.Module) : Except Abort Program := do
  if m.funcs.length ≠ m.code.length then
    Failure.raise (.malformed .program
      (toString m.funcs.length ++ " functions declared, " ++ toString m.code.length ++ " bodies"))
  else
    let types := m.types.mapIdx typeEntry
    let imports ← liftFailure (importsOf types 0 m.imports)
    let globals ← liftFailure (globalsOf 0 m.globals)
    let funcs ← functionsOf m types imports.length 0 (m.funcs.zip m.code)
    return { imports, funcs, globals, types }

end Program

end WasmShader
