import WasmShader.Program.Body
import WasmShader.Program.Symbol
import WasmShader.Value.Basic

/-!
# Programs

The functions of one module with their structured bodies, its imports, globals
and types. Functions are numbered with the imported ones first. A function that
uses a construct outside the supported subset is kept with the reason in place
of its body, so that the rest of the module can still be compiled.
-/

namespace WasmShader

structure Function where
  /-- The function's number in the module, imports included. -/
  index : Nat
  /-- The function's place among the defined functions. -/
  pos : Nat
  /-- The first symbol it is exported under, or a generated one. -/
  symbol : Symbol
  exports : List Symbol
  type : Signature
  /-- The types of the locals, parameters first. -/
  locals : List ValueType
  /-- The body, or why the function has none. -/
  body : Except Failure Body
  /-- The targets of direct calls in order of appearance, imports included. -/
  calls : List Nat := []
  /-- How many indirect calls the body has. -/
  indirectCalls : Nat := 0
  /-- How many times the body asks for or grows the memory. -/
  memoryOps : Nat := 0
  deriving Inhabited

def Function.name (f : Function) : String := f.symbol.text

/-- An imported function, run by the host. -/
structure Import where
  index : Nat
  module : String
  name : String
  type : Signature
  /-- Why the type has no signature. -/
  err : Option Failure := none
  deriving Inhabited

/-- A global with its initial value. -/
structure Global where
  type : ValueType
  isMutable : Bool
  init : Value
  deriving Inhabited

/-- A module type; one that uses reference types has a failure and an empty
signature. -/
structure TypeEntry where
  sig : Signature
  err : Option Failure := none
  deriving Inhabited

structure Program where
  imports : List Import := []
  funcs : List Function := []
  globals : List Global := []
  types : List TypeEntry := []
  deriving Inhabited

namespace Program

def numImports (p : Program) : Nat := p.imports.length

/-- The number of functions, imported and defined. -/
def numFuncs (p : Program) : Nat := p.imports.length + p.funcs.length

def isImport (p : Program) (idx : Nat) : Bool := idx < p.imports.length

def func? (p : Program) (idx : Nat) : Option Function :=
  if p.isImport idx then none else p.funcs[idx - p.imports.length]?

/-- The signature of a function, imported or defined. -/
def signature? (p : Program) (idx : Nat) : Option Signature :=
  if p.isImport idx then p.imports[idx]?.map (·.type) else (p.func? idx).map (·.type)

/-- The function performs an operation that only the host can: a call of an
import, an indirect call, or a question about the memory. -/
def hostOps (p : Program) (f : Function) : Bool :=
  0 < f.indirectCalls || 0 < f.memoryOps || f.calls.any p.isImport

/-- The first defined function that has a symbol or is exported under it. -/
def functionBySymbol? (p : Program) (symbol : Symbol) : Option Function :=
  p.funcs.find? fun f => f.symbol == symbol || f.exports.contains symbol

end Program

end WasmShader
