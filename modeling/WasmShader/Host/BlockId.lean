import WasmShader.Failure

/-!
# Block numbers

A block number on the emulated stack addresses either a generated block or, with
its high bit set, a host function. The numbers of generated blocks are handed
out in order by an `Allocator`.
-/

namespace WasmShader

/-- The number of a generated block or of a host function. -/
structure BlockId where
  val : UInt32
  deriving DecidableEq, Repr, Inhabited

namespace BlockId

/-- The bit that marks host functions. -/
def hostBit : UInt32 := 0x80000000

/-- How many numbers there are for generated blocks. -/
def maxBlocks : Nat := 0x80000000

/-- The number of the `n`-th host function. -/
def host (n : UInt32) : BlockId := ⟨hostBit ||| n⟩

def ofNat (n : Nat) : BlockId := ⟨n.toUInt32⟩

def isHost (id : BlockId) : Bool := id.val &&& hostBit != 0

/-- The number without the mark of host functions. -/
def index (id : BlockId) : UInt32 := id.val &&& ~~~hostBit

def text (id : BlockId) : String :=
  if id.isHost then "host#" ++ toString id.index.toNat else "blk#" ++ toString id.val.toNat

end BlockId

/-- Hands out the numbers of generated blocks. -/
structure Allocator where
  next : Nat := 0
  limit : Nat
  deriving DecidableEq, Repr, Inhabited

namespace Allocator

/-- The limit on block numbers that a request means: zero stands for all of
them, and no more can be had. -/
def clamp (limit : Nat) : Nat :=
  if limit = 0 || BlockId.maxBlocks < limit then BlockId.maxBlocks else limit

def new (limit : Nat) : Allocator := { limit := clamp limit }

/-- The next number, and the allocator behind it. -/
def take (a : Allocator) : Except Failure (BlockId × Allocator) :=
  if a.limit ≤ a.next then .error (.capacity .split "child block ids" (a.next + 1) a.limit)
  else .ok (.ofNat a.next, { a with next := a.next + 1 })

end Allocator

end WasmShader
