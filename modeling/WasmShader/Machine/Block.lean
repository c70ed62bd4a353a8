import WasmShader.Host.Table
import WasmShader.Program.Basic

/-!
# Blocks of the stack machine

The stack-machine form of a function: straight-line blocks, each of which ends
in exactly one terminator. A block is entered with a frame on the emulated stack
and leaves the frame of the next block there.
-/

namespace WasmShader

/-- A transfer to another block of the same machine. The target is entered with
the bottom `keep` operands of the stack followed by its top `carry` operands. -/
structure Edge where
  target : Nat
  keep : Nat
  carry : Nat := 0
  deriving DecidableEq, Repr, Inhabited

/-- How a block ends. -/
inductive Terminator
  | goto (edge : Edge)
  /-- Takes the first edge if the condition on top of the stack is not zero. -/
  | branch (taken notTaken : Edge)
  /-- Takes the edge that the selector on top of the stack numbers. -/
  | switch (cases : List Edge) (fallback : Edge)
  /-- Calls another function and goes on at `next` with its results. -/
  | call (callee : Nat) (args results : List ValueType) (next : Nat)
  /-- Asks the host and goes on at `next` with its results. -/
  | host (func : HostFunc) (args results : List ValueType) (next : Nat)
  | ret (results : List ValueType)
  | trap (code : TrapCode)
  deriving DecidableEq, Repr, Inhabited

namespace Terminator

def kindName : Terminator → String
  | .goto _ => "goto"
  | .branch _ _ => "branch"
  | .switch _ _ => "switch"
  | .call .. => "call"
  | .host .. => "host"
  | .ret _ => "return"
  | .trap _ => "trap"

/-- The transfers within the machine; those of a switch end with its fallback. -/
def edges : Terminator → List Edge
  | .goto e => [e]
  | .branch taken notTaken => [taken, notTaken]
  | .switch cases fallback => cases ++ [fallback]
  | _ => []

/-- The block control comes back to. -/
def next? : Terminator → Option Nat
  | .call _ _ _ next | .host _ _ _ next => some next
  | _ => none

/-- The types of what a transfer out of the machine passes on. -/
def args : Terminator → List ValueType
  | .call _ args _ _ | .host _ args _ _ => args
  | _ => []

/-- The blocks control may reach next within the machine. -/
def successors (t : Terminator) : List Nat :=
  t.edges.map (·.target) ++ t.next?.toList

/-- The terminator with its targets renumbered. -/
def renumber (f : Nat → Nat) : Terminator → Terminator
  | .goto e => .goto (edge e)
  | .branch taken notTaken => .branch (edge taken) (edge notTaken)
  | .switch cases fallback => .switch (cases.map edge) (edge fallback)
  | .call callee args results next => .call callee args results (f next)
  | .host func args results next => .host func args results (f next)
  | .ret results => .ret results
  | .trap code => .trap code
where
  edge (e : Edge) : Edge := { e with target := f e.target }

/-- The names of the kinds of terminators, by number. -/
def kindNames : List String :=
  ["goto", "branch", "switch", "call", "host", "return", "trap"]

/-- The name of the kind with a given number. -/
def kindText (code : UInt8) : String :=
  kindNames.getD code.toNat ("TermKind(" ++ toString code.toNat ++ ")")

end Terminator

structure Block where
  index : Nat
  /-- The operand stack on entry. -/
  entry : List ValueType
  /-- Code without calls of the machine, questions to the host, or branches out
  of a construct in it. -/
  body : Body
  /-- The operand stack in front of the terminator, with what it takes. -/
  stack : List ValueType
  term : Terminator
  deriving Inhabited

/-- The stack-machine form of a function. Block zero is where it is entered. -/
structure Machine where
  func : Function
  blocks : List Block
  deriving Inhabited

end WasmShader
