import WasmShader.CallGraph.Analysis
import WasmShader.Compile.Config
import WasmShader.Host.Table

/-!
# Compiled modules

An `Executable` is a shader module with what is needed to run it: its entry
points, its blocks, the host functions it asks for and the sizes of the buffers.
`Compiled` adds what it was made from.
-/

namespace WasmShader.Compile

structure Entry where
  /-- The export it is for. -/
  symbol : Symbol
  /-- The name of the entry point in the shader. -/
  shader : String
  sig : Signature
  func : Nat
  /-- The block that a function run by the dispatcher comes back to. Other
  functions are called directly. -/
  exit : Option BlockId := none
  deriving DecidableEq, Repr, Inhabited

def Entry.name (e : Entry) : String := e.symbol.text

/-- The function runs through the dispatcher. -/
def Entry.isMachine (e : Entry) : Bool := e.exit.isSome

structure BlockInfo where
  id : BlockId
  /-- The name of its function in the shader. -/
  name : String
  /-- The function it belongs to. -/
  func : Nat := 0
  /-- Its place in the machine of the function; an exit block has none. -/
  index : Option Nat := none
  term : String := ""
  payload : List ValueType := []
  frameWords : Nat := 0
  deriving DecidableEq, Repr, Inhabited

structure Executable where
  module : Shader.Module
  layout : Layout
  hosts : HostTable
  /-- The entry points, sorted by name. -/
  entries : List Entry
  /-- The blocks in the order of their numbers. -/
  blocks : List BlockInfo
  /-- The data words of a lane's stack. -/
  stackWords : UInt32
  /-- The words of a lane in the io buffer. -/
  ioWords : UInt32
  /-- The words of a lane in the buffer of globals. -/
  globalWords : UInt32
  /-- The globals a lane starts with. -/
  globalInit : List UInt32
  deriving Inhabited

namespace Executable

def entryFor? (x : Executable) (symbol : Symbol) : Option Entry :=
  x.entries.find? (·.symbol == symbol)

/-- The block with a number; of several, the last. -/
def block? (x : Executable) (id : BlockId) : Option BlockInfo :=
  x.blocks.reverse.find? (·.id == id)

def blockNamed? (x : Executable) (name : String) : Option BlockId :=
  (x.blocks.find? fun b => b.name == name && (x.block? b.id).any (·.name == name)).map (·.id)

end Executable

/-- A compiled module with what it was made from. -/
structure Compiled extends Executable where
  config : Config
  program : Program
  analysis : Analysis
  /-- The functions with machines and the numbers of their blocks. -/
  machines : List (Nat × List BlockId)
  /-- The functions left out and why, in ascending order. -/
  skipped : List (Nat × Failure)
  deriving Inhabited

end WasmShader.Compile
