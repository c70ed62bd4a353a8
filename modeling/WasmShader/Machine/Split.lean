import WasmShader.CallGraph.Analysis
import WasmShader.Machine.Block
import WasmShader.Program.Effect

/-!
# Splitting a function into blocks

`Machine.split` walks the structured body of a checked function. Calls that need
the machine and questions to the host end a block. A block, loop or conditional
stays as it is inside a block when it contains neither, no return and no branch
that leaves it; otherwise the walk goes into it, and its label becomes a block of
its own. Blocks that control cannot reach are dropped at the end.

Crashes stand where a body that has not been checked would ask for more operands
than there are or for a label, local or type that does not exist.
-/

namespace WasmShader

namespace Split

/-- A block while its code is collected. -/
structure Draft where
  entry : List ValueType
  body : Body := []
  stack : List ValueType := []
  term : Option Terminator := none
  deriving Inhabited

/-- Where a branch leads. -/
inductive Target
  /-- Out of the function. -/
  | func
  /-- To a block, with the operands below `height` kept. -/
  | block (index height : Nat)
  deriving Inhabited

/-- A label that branches can name. -/
structure Label where
  target : Target
  types : List ValueType
  deriving Inhabited

/-- The state of a walk. -/
structure State where
  drafts : Array Draft := #[]
  /-- The block that code goes to; none where control does not get. -/
  current : Option Nat := none
  stack : TypeStack := []
  /-- The block that returns, once a conditional branch needed one. -/
  returnBlock : Option Nat := none
  hosts : HostTable
  deriving Inhabited

/-- What a walk does not change. -/
structure Context where
  program : Program
  analysis : Analysis
  func : Function

abbrev Walk := StateT State (Except Abort)

def crash : Walk α := throw .outOfBounds

/-- Adds a block and gives its number. -/
def newBlock (entry : List ValueType) : Walk Nat := do
  let s ← get
  set { s with drafts := s.drafts.push { entry } }
  return s.drafts.size

/-- Goes on in a block with its entry stack. -/
def enter (index : Nat) : Walk Unit := modify fun s =>
  { s with current := some index, stack := (s.drafts.getD index default).entry }

def editCurrent (edit : Draft → Draft) : Walk Unit := do
  let s ← get
  match s.current with
  | none => crash
  | some i => set { s with drafts := s.drafts.modify i edit }

/-- Gives the current block its terminator; `stack` is the stack in front of it. -/
def close (stack : List ValueType) (term : Terminator) : Walk Unit :=
  editCurrent fun d => { d with stack, term := some term }

/-- Ends the current block, behind which no code follows on. -/
def terminate (term : Terminator) : Walk Unit := do
  close (← get).stack term
  modify fun s => { s with current := none }

/-- The operands below the top `n`. -/
def below (stack : TypeStack) (n : Nat) : Walk TypeStack :=
  if stack.length < n then crash else return stack.below n

/-- The bottom `n` operands. -/
def bottom (stack : TypeStack) (n : Nat) : Walk TypeStack :=
  if stack.length < n then crash else return stack.take n

/-- Appends a node to the current block. -/
def append (n : Node) : Walk Unit :=
  editCurrent fun d => { d with body := d.body ++ [n] }

/-- The block that returns from the function. -/
def returnBlock (results : List ValueType) : Walk Nat := do
  match (← get).returnBlock with
  | some i => return i
  | none =>
    let i ← newBlock results
    modify fun s =>
      { s with
        returnBlock := some i
        drafts := s.drafts.modify i fun d =>
          { d with stack := results, term := some (.ret results) } }
    return i

/-- The transfer that a branch to a label makes. -/
def edgeTo (ctx : Context) (l : Label) : Walk Edge := do
  match l.target with
  | .func => return ⟨← returnBlock ctx.func.type.results, 0, l.types.length⟩
  | .block index height => return ⟨index, height, l.types.length⟩

/-- The label at a depth. -/
def labelAt (labels : List Label) (depth : UInt32) : Walk Label :=
  match labels[depth.toNat]? with
  | some l => return l
  | none => crash

/-! ## What can stay inline -/

/-- A branch to a depth below `depth` stays inside the construct. -/
def inlineInstr (ctx : Context) (depth : Nat) (i : Instr) : Except Abort Bool :=
  match i.operation with
  | .br | .brIf =>
    match i.imm with
    | .branch d => .ok (d.toNat < depth)
    | _ => .error .outOfBounds
  | .brTable =>
    match i.imm with
    | .branchTable labels fallback =>
      .ok (fallback.toNat < depth && labels.all (·.toNat < depth))
    | _ => .error .outOfBounds
  | .ret | .callIndirect | .memorySize | .memoryGrow => .ok false
  | .call =>
    match i.imm with
    | .call target => .ok (ctx.analysis.canCallDirect ctx.func.index target.toNat)
    | _ => .error .outOfBounds
  | _ => .ok true

mutual

/-- A node inside `depth` constructs can stay inline with the outermost one. -/
def inlineNode (ctx : Context) (depth : Nat) : Node → Except Abort Bool
  | .instr i => inlineInstr ctx depth i
  | .block _ _ body => inlineSeq ctx (depth + 1) body
  | .ifThen _ body => inlineSeq ctx (depth + 1) body
  | .ifElse _ body alternative => do
    if ← inlineSeq ctx (depth + 1) body then inlineSeq ctx (depth + 1) alternative
    else return false

def inlineSeq (ctx : Context) (depth : Nat) : List Node → Except Abort Bool
  | [] => .ok true
  | n :: ns => do
    if ← inlineNode ctx depth n then inlineSeq ctx depth ns else return false

end

/-- Keeps a construct inline. -/
def keepInline (n : Node) (pops : Nat) (pushes : List ValueType) : Walk Unit := do
  append n
  let rest ← below (← get).stack pops
  modify fun s => { s with stack := rest ++ pushes }

/-! ## The walk -/

/-- Ends the block with a call or question whose results are on top of the stack
where control comes back. -/
def yieldWith (args results : List ValueType)
    (term : (args results : List ValueType) → (next : Nat) → Terminator) : Walk Unit := do
  let stack := (← get).stack
  let rest ← below stack args.length
  let next ← newBlock (rest ++ results)
  close stack (term args results next)
  enter next

/-- Ends the block with a question to the host. -/
def yieldHost (request : HostTable → HostFunc × HostTable) : Walk Unit := do
  let (h, hosts) := request (← get).hosts
  modify fun s => { s with hosts }
  yieldWith h.params h.results (.host h)

/-- Applies an instruction that stays inside the block. -/
def plain (ctx : Context) (i : Instr) : Walk Unit := do
  let stack := (← get).stack
  let effect ← ctx.program.effect ctx.func i stack
  let stack ← liftFailure (stack.apply ctx.func.name effect)
  modify fun s => { s with stack }
  append (.instr i)

def walkCall (ctx : Context) (i : Instr) (target : Nat) : Walk Unit := do
  let p := ctx.program
  let sig := (p.signature? target).getD ⟨[], []⟩
  if p.isImport target then
    match p.imports[target]? with
    | none => crash
    | some imp =>
      let (h, hosts) := (← get).hosts.importCall imp
      modify fun s => { s with hosts }
      yieldWith sig.params sig.results (.host h)
  else if ctx.analysis.canCallDirect ctx.func.index target then plain ctx i
  else yieldWith sig.params sig.results (.call target)

def walkTable (ctx : Context) (labels : List Label) (depths : List UInt32) (fallback : UInt32) :
    Walk Unit := do
  let cases ← depths.mapM fun d => do edgeTo ctx (← labelAt labels d)
  let last ← edgeTo ctx (← labelAt labels fallback)
  terminate (.switch cases last)

def walkInstr (ctx : Context) (labels : List Label) (i : Instr) : Walk Unit := do
  match i.operation, i.imm with
  | .br, .branch depth =>
    let l ← labelAt labels depth
    match l.target with
    | .func => terminate (.ret l.types)
    | .block .. => terminate (.goto (← edgeTo ctx l))
  | .brIf, .branch depth =>
    let taken ← edgeTo ctx (← labelAt labels depth)
    let stack := (← get).stack
    let rest ← below stack 1
    let next ← newBlock rest
    close stack (.branch taken ⟨next, rest.length, 0⟩)
    enter next
  | .brTable, .branchTable depths fallback => walkTable ctx labels depths fallback
  | .ret, _ => terminate (.ret ctx.func.type.results)
  | .unreachable, _ => terminate (.trap .unreachable)
  | .call, .call target => walkCall ctx i target.toNat
  | .callIndirect, .callIndirect typeIdx _ =>
    match ctx.program.types[typeIdx.toNat]? with
    | none => crash
    | some t => yieldHost (·.indirect typeIdx.toNat t.sig)
  | .memorySize, _ => yieldHost (·.memory .memorySize)
  | .memoryGrow, _ => yieldHost (·.memory .memoryGrow)
  | .br, _ | .brIf, _ | .brTable, _ | .call, _ | .callIndirect, _ => crash
  | _, _ => plain ctx i

/-- Where a construct is left for the block behind it. -/
def leaveFor (join base : Nat) (results : List ValueType) : Walk Unit := do
  if (← get).current.isSome then terminate (.goto ⟨join, base, results.length⟩)

mutual

def walkNode (ctx : Context) (labels : List Label) : Node → Walk Unit
  | .instr i => walkInstr ctx labels i
  | .block loop sig body => do
    if ← inlineNode ctx 0 (.block loop sig body) then
      keepInline (.block loop sig body) sig.params.length sig.results
    else if loop then
      let stack := (← get).stack
      let outer ← below stack sig.params.length
      let header ← newBlock stack
      terminate (.goto ⟨header, stack.length, 0⟩)
      enter header
      walkSeq ctx (⟨.block header outer.length, sig.params⟩ :: labels) body
      -- The loop is left at its end, with its results in place.
      let kept ← bottom (← get).stack outer.length
      modify fun s => { s with stack := kept ++ sig.results }
    else
      let outer ← below (← get).stack sig.params.length
      let join ← newBlock (outer ++ sig.results)
      walkSeq ctx (⟨.block join outer.length, sig.results⟩ :: labels) body
      leaveFor join outer.length sig.results
      enter join
  | .ifThen sig body => do
    if ← inlineNode ctx 0 (.ifThen sig body) then
      keepInline (.ifThen sig body) (sig.params.length + 1) sig.results
    else
      let stack := (← get).stack
      let rest ← below stack 1
      let outer ← below rest sig.params.length
      let join ← newBlock (outer ++ sig.results)
      let first ← newBlock rest
      close stack (.branch ⟨first, rest.length, 0⟩ ⟨join, rest.length, 0⟩)
      enter first
      walkSeq ctx (⟨.block join outer.length, sig.results⟩ :: labels) body
      leaveFor join outer.length sig.results
      enter join
  | .ifElse sig body alternative => do
    if ← inlineNode ctx 0 (.ifElse sig body alternative) then
      keepInline (.ifElse sig body alternative) (sig.params.length + 1) sig.results
    else
      let stack := (← get).stack
      let rest ← below stack 1
      let outer ← below rest sig.params.length
      let join ← newBlock (outer ++ sig.results)
      let first ← newBlock rest
      let second ← newBlock rest
      close stack (.branch ⟨first, rest.length, 0⟩ ⟨second, rest.length, 0⟩)
      enter first
      walkSeq ctx (⟨.block join outer.length, sig.results⟩ :: labels) body
      leaveFor join outer.length sig.results
      enter second
      walkSeq ctx (⟨.block join outer.length, sig.results⟩ :: labels) alternative
      leaveFor join outer.length sig.results
      enter join

/-- Walks a sequence. Code behind a construct that control does not leave gets a
block of its own. -/
def walkSeq (ctx : Context) (labels : List Label) : List Node → Walk Unit
  | [] => pure ()
  | n :: ns => do
    if (← get).current.isNone then
      let i ← newBlock (← get).stack
      modify fun s => { s with current := some i }
    walkNode ctx labels n
    walkSeq ctx labels ns

end

/-! ## Dropping blocks that control cannot reach -/

/-- A finished block. -/
def finish (index : Nat) (d : Draft) : Except Abort Block :=
  match d.term with
  | some term => .ok ⟨index, d.entry, d.body, d.stack, term⟩
  | none => .error .outOfBounds

/-- The numbers of the blocks reachable from block zero. -/
def reachable (blocks : Array Block) : List Nat :=
  let next (i : Nat) : List Nat := (blocks[i]?.map (·.term.successors)).getD []
  let edges := blocks.foldl (fun n b => n + b.term.successors.length) 0
  CallGraph.closure next (edges + 1) [0] []

/-- The reachable blocks, numbered anew in the same order. -/
def survivors (blocks : Array Block) : List Block :=
  let live := reachable blocks
  let kept := blocks.toList.filter fun b => live.contains b.index
  let numbers := kept.map (·.index)
  let number (i : Nat) : Nat := numbers.idxOf i
  kept.map fun b => { b with index := number b.index, term := b.term.renumber number }

/-- Keeps the reachable blocks. Looking for them crashes on a block that there is not. -/
def prune (blocks : Array Block) : Except Abort (List Block) :=
  if (reachable blocks).all (· < blocks.size) then .ok (survivors blocks) else .error .outOfBounds

end Split

/-- The blocks of a checked function, and the host table with the questions the
function asks. -/
def Machine.split (p : Program) (a : Analysis) (hosts : HostTable) (f : Function) :
    Except Abort (Machine × HostTable) := do
  match f.body with
  | .error _ => .error .outOfBounds
  | .ok body =>
    let ctx : Split.Context := ⟨p, a, f⟩
    let walk : Split.Walk Unit := do
      Split.enter (← Split.newBlock [])
      Split.walkSeq ctx [⟨.func, f.type.results⟩] body
      if (← get).current.isSome then Split.terminate (.ret f.type.results)
    let (_, s) ← walk.run { hosts }
    let blocks ← s.drafts.toList.zipIdx.mapM fun (d, i) => Split.finish i d
    return (⟨f, ← Split.prune blocks.toArray⟩, s.hosts)

end WasmShader
