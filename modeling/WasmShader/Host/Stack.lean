import WasmShader.Host.BlockId
import WasmShader.Host.Trap

/-!
# The stack of a lane

A lane's region of the stack buffer: a header of two words, the stack pointer
and the trap code, and behind it the data words, of which the stack pointer
counts those in use. The region is the whole state of a suspended invocation.
-/

namespace WasmShader

/-- A lane's region of the stack buffer. -/
structure LaneStack where
  words : Array UInt32
  deriving DecidableEq, Repr, Inhabited

namespace LaneStack

/-- The words in front of the data. -/
def headerWords : Nat := 2

/-- The place of the trap code in the header. -/
def trapWord : Nat := 1

/-- An empty region with room for `capacity` data words. -/
def new (capacity : Nat) : LaneStack := ⟨Array.replicate (headerWords + capacity) 0⟩

def capacity (s : LaneStack) : Nat := s.words.size - headerWords

def sp (s : LaneStack) : UInt32 := s.words.getD 0 0

def setSp (s : LaneStack) (sp : UInt32) : LaneStack := ⟨s.words.setIfInBounds 0 sp⟩

def trap (s : LaneStack) : TrapCode := ⟨s.words.getD trapWord 0⟩

def setTrap (s : LaneStack) (c : TrapCode) : LaneStack := ⟨s.words.setIfInBounds trapWord c.code⟩

/-- The data words from `lo` up to but not including `hi`; a crash unless they
are there. -/
def slice (s : LaneStack) (lo hi : Nat) : Except Abort (List UInt32) :=
  if lo ≤ hi && hi ≤ s.capacity then
    .ok (s.words.extract (headerWords + lo) (headerWords + hi)).toList
  else .error .outOfBounds

def data (s : LaneStack) : List UInt32 := (s.words.extract headerWords s.words.size).toList

/-- The block number on top of the stack. With an empty stack this is the trap
word, which stands right in front of the data. -/
def top (s : LaneStack) : Except Abort BlockId :=
  match s.words[headerWords + s.sp.toNat - 1]? with
  | some w => .ok ⟨w⟩
  | none => .error .outOfBounds

/-- Writes words at consecutive places of an array. -/
def writeAt (xs : Array UInt32) : (place : Nat) → List UInt32 → Array UInt32
  | _, [] => xs
  | i, w :: ws => writeAt (xs.setIfInBounds i w) (i + 1) ws

/-- Puts words on the stack if they fit. -/
def push (s : LaneStack) (ws : List UInt32) : Except Failure LaneStack :=
  let sp := s.sp.toNat
  if s.capacity < sp + ws.length then
    .error (.report
      { phase := .runtime, kind := .stackOverflow
        detail := "push of " ++ toString ws.length ++ " words at sp " ++ toString sp
          ++ " exceeds " ++ toString s.capacity })
  else .ok (LaneStack.setSp ⟨writeAt s.words (headerWords + sp) ws⟩ (s.sp + ws.length.toUInt32))

def pop (s : LaneStack) (n : Nat) : Except Abort (List UInt32 × LaneStack) := do
  let sp := s.sp.toNat
  if sp < n then
    Failure.raise (.report
      { phase := .runtime, kind := .stackOverflow
        detail := "pop of " ++ toString n ++ " words at sp " ++ toString sp })
  else
    let ws ← s.slice (sp - n) sp
    return (ws, s.setSp (sp - n).toUInt32)

/-- Clears the header for a new invocation. -/
def reset (s : LaneStack) : LaneStack := (s.setSp 0).setTrap .none

end LaneStack

end WasmShader
