import WasmShader.Binary.Instr
import WasmShader.Binary.Module
import WasmShader.Value.Type

/-!
# Structured bodies

A function body as a tree: plain instructions, blocks and loops, and
conditionals with or without an alternative. `Body.parse` builds the tree of a
flat list of instructions that ends with the function's own end. It leaves out
what cannot run, everything in a sequence behind a branch, table branch, return
or trap, and what does nothing; both are still read, so code that cannot run has
to be well nested too.
-/

namespace WasmShader

inductive Node
  | instr (i : Instr)
  /-- A block, or a loop that a branch to it starts again. -/
  | block (loop : Bool) (sig : Signature) (body : List Node)
  /-- A conditional without an alternative. -/
  | ifThen (sig : Signature) (body : List Node)
  | ifElse (sig : Signature) (body alternative : List Node)
  deriving Repr, Inhabited

abbrev Body := List Node

/-- The types that a branch to a block or loop carries. -/
def labelTypes (loop : Bool) (sig : Signature) : List ValueType :=
  if loop then sig.params else sig.results

/-- A list of type bytes as value types; reference types have none. -/
def convertTypes : Bytes → Except Failure (List ValueType)
  | [] => .ok []
  | b :: bs =>
    match ValueType.ofByte? b with
    | none => .error (.plain ("value type " ++ ValueType.byteName b))
    | some t => return t :: (← convertTypes bs)

/-- A function type of the binary format as a signature. -/
def convertSignature (t : Binary.FuncType) : Except Failure Signature := do
  let params ← convertTypes t.params
  return ⟨params, ← convertTypes t.results⟩

namespace Body

/-- The signature a block type stands for. -/
def blockSignature (types : List Binary.FuncType) (type : Int32) : Except Failure Signature :=
  let n := type.toInt
  let single (t : ValueType) : Except Failure Signature := .ok ⟨[], [t]⟩
  if n = -64 then .ok ⟨[], []⟩
  else if n = -1 then single .i32
  else if n = -2 then single .i64
  else if n = -3 then single .f32
  else if n = -4 then single .f64
  else if n = -5 then single .v128
  else
    let outOfRange : Failure := .plain ("block type " ++ toString n ++ " out of range")
    if n < 0 then .error outOfRange
    else match types[n.toNat]? with
      | some t => convertSignature t
      | none => .error outOfRange

/-- What ended a sequence. -/
inductive SeqEnd
  | atEnd
  | atElse
  deriving DecidableEq, Repr

/-- The context of a parse: the types of the module and the number of
instructions, by which positions are told. -/
structure Source where
  types : List Binary.FuncType
  count : Nat

namespace Source

/-- The position of the instruction just read when `rest` follows it. -/
def position (s : Source) (rest : List Instr) : Nat := s.count - rest.length - 1

/-- The signature of a block, loop or conditional. -/
def signature (s : Source) (i : Instr) : Except Abort Signature :=
  match i.imm with
  | .block type => liftFailure (blockSignature s.types type)
  | _ => .error .outOfBounds

/-- A failure at the instruction just read. -/
def failAt (s : Source) (what : String) (rest : List Instr) : Except Abort α :=
  Failure.raise (.plain (what ++ " at instruction " ++ toString (s.position rest)))

end Source

/-- Reads a sequence up to and including the end or else that closes it. Every
call reads an instruction, so `fuel` need not exceed their number by more than
one. -/
def parseSeq (s : Source) :
    (fuel : Nat) → List Instr → Except Abort (Body × SeqEnd × List Instr)
  | 0, _ | _, [] =>
    Failure.raise (.plain ("unexpected end of code at instruction " ++ toString s.count))
  | fuel + 1, i :: rest =>
    match i.operation with
    | .endMark => .ok ([], .atEnd, rest)
    | .elseMark => .ok ([], .atElse, rest)
    | .block | .loop => do
      let sig ← s.signature i
      let (body, close, rest) ← parseSeq s fuel rest
      match close with
      | .atElse => s.failAt "else without if" rest
      | .atEnd =>
        let (nodes, close, rest) ← parseSeq s fuel rest
        return (.block (i.operation = .loop) sig body :: nodes, close, rest)
    | .ifElse => do
      let sig ← s.signature i
      let (body, close, rest) ← parseSeq s fuel rest
      match close with
      | .atEnd =>
        let (nodes, close, rest) ← parseSeq s fuel rest
        return (.ifThen sig body :: nodes, close, rest)
      | .atElse =>
        let (alternative, close, rest) ← parseSeq s fuel rest
        match close with
        | .atElse => s.failAt "duplicate else" rest
        | .atEnd =>
          let (nodes, close, rest) ← parseSeq s fuel rest
          return (.ifElse sig body alternative :: nodes, close, rest)
    | .nop => parseSeq s fuel rest
    | op => do
      let (nodes, close, rest) ← parseSeq s fuel rest
      return (.instr i :: (if op.isTerminal then [] else nodes), close, rest)

/-- The tree of a flat body. -/
def parse (types : List Binary.FuncType) (instrs : List Instr) : Except Abort Body := do
  let (body, close, rest) ← parseSeq ⟨types, instrs.length⟩ (instrs.length + 1) instrs
  match close, rest with
  | .atElse, _ => Failure.raise (.plain "function body not terminated by end")
  | .atEnd, [] => return body
  | .atEnd, rest => Failure.raise (.plain (toString rest.length ++ " instructions after final end"))

end Body

/-! ## Calls in a body -/

mutual

/-- The instructions of a node in order of appearance. -/
def Node.instrs : Node → List Instr
  | .instr i => [i]
  | .block _ _ body => Body.instrs body
  | .ifThen _ body => Body.instrs body
  | .ifElse _ body alternative => Body.instrs body ++ Body.instrs alternative

def Body.instrs : List Node → List Instr
  | [] => []
  | n :: ns => n.instrs ++ Body.instrs ns

end

/-- The direct calls of a body in order of appearance. -/
def Body.calls (body : Body) : List Nat :=
  (Body.instrs body).filterMap fun i => i.callTarget?.map (·.toNat)

/-- Collects the direct calls of a body. A call names a function. -/
def Body.callSites (body : Body) : Except Abort (List Nat) := do
  if (Body.instrs body).any fun i => i.operation = .call && i.callTarget?.isNone then
    throw .outOfBounds
  return Body.calls body

end WasmShader
