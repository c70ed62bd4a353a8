import WasmShader.Host.BlockId
import WasmShader.Program.Symbol
import WasmShader.Shader.Module

/-!
# Settings of a compilation
-/

namespace WasmShader.Compile

open Shader

structure Config where
  /-- The exports to make entry points for; none stands for all. -/
  exports : List String := []
  workgroup : Workgroup := ⟨0, 0, 0⟩
  /-- The data words of a lane's stack. -/
  stackWords : UInt32 := 0
  /-- How many block numbers may be used. -/
  maxBlocks : Nat := 0
  /-- The hardware has 64-bit floats. -/
  nativeF64 : Bool := false
  /-- Functions with unsupported constructs are left out, and so are their
  callers, instead of failing the module. -/
  skipUnsupported : Bool := false
  deriving DecidableEq, Repr, Inhabited

namespace Config

def defaultStackWords : UInt32 := 65536

def defaultWorkgroup : Workgroup := ⟨256, 1, 1⟩

/-- The given number, or a substitute for zero. -/
def orElse (n substitute : UInt32) : UInt32 := if n = 0 then substitute else n

/-- A workgroup with every size at least one; the default if none is given. -/
def fillWorkgroup (w : Workgroup) : Workgroup :=
  if w = ⟨0, 0, 0⟩ then defaultWorkgroup else ⟨orElse w.x 1, orElse w.y 1, orElse w.z 1⟩

/-- The settings with what is not given filled in. -/
def withDefaults (c : Config) : Config :=
  { c with
    workgroup := fillWorkgroup c.workgroup
    stackWords := orElse c.stackWords defaultStackWords
    maxBlocks := Allocator.clamp c.maxBlocks }

def layout (c : Config) : Layout := ⟨c.nativeF64⟩

/-- An export gets an entry point. -/
def wants (c : Config) (symbol : Symbol) : Bool :=
  c.exports.isEmpty || c.exports.any (Symbol.ofText · == symbol)

end Config

end WasmShader.Compile
