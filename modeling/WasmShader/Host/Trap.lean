/-!
# Traps

Why an invocation stopped for good. The code is written to the lane's trap word;
zero is no trap. Codes beyond the known ones can be written too and are kept.
-/

namespace WasmShader

structure TrapCode where
  code : UInt32
  deriving DecidableEq, Repr, Inhabited

namespace TrapCode

def none : TrapCode := ⟨0⟩
def unreachable : TrapCode := ⟨1⟩
def divByZero : TrapCode := ⟨2⟩
def intOverflow : TrapCode := ⟨3⟩
def stackOverflow : TrapCode := ⟨4⟩
def invalidBlock : TrapCode := ⟨5⟩
def invalidConversion : TrapCode := ⟨6⟩
def unsupported : TrapCode := ⟨7⟩
def recursionUnavailable : TrapCode := ⟨8⟩

/-- The texts of the known codes, in order. -/
def names : List String :=
  ["none", "unreachable", "integer divide by zero", "integer overflow", "stack overflow",
   "invalid block id", "invalid conversion to integer", "unsupported operation",
   "recursion unavailable in direct call"]

def text (c : TrapCode) : String := names.getD c.code.toNat "unknown trap"

end TrapCode

end WasmShader
