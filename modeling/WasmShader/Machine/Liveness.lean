import WasmShader.Machine.BitSet
import WasmShader.Machine.Block

/-!
# Live locals

A local is live on entry to a block if some path from there reads it before
writing it. A write inside a nested construct may not happen, so only a write at
the top level of a block ends the life of a local.
-/

namespace WasmShader

namespace Liveness

/-- What a block does to locals: those it reads before writing them, and those
it is sure to write. -/
structure Use where
  reads : BitSet
  writes : BitSet
  deriving Inhabited

/-- Adds an instruction to the use of a block. -/
def useInstr (top : Bool) (i : Instr) (u : Use) : Except Abort Use :=
  match i.operation, i.imm with
  | .localGet, .localVar idx =>
    .ok (if u.writes.contains idx.toNat then u else { u with reads := u.reads.insert idx.toNat })
  | .localSet, .localVar idx | .localTee, .localVar idx =>
    .ok (if top then { u with writes := u.writes.insert idx.toNat } else u)
  | .localGet, _ => .error .outOfBounds
  | .localSet, _ | .localTee, _ => if top then .error .outOfBounds else .ok u
  | _, _ => .ok u

mutual

/-- Adds a node to the use of a block. -/
def useNode (top : Bool) : Node → Use → Except Abort Use
  | .instr i, u => useInstr top i u
  | .block _ _ body, u => useSeq false body u
  | .ifThen _ body, u => useSeq false body u
  | .ifElse _ body alternative, u => do useSeq false alternative (← useSeq false body u)

/-- Adds a sequence to the use of a block. -/
def useSeq (top : Bool) : List Node → Use → Except Abort Use
  | [], u => .ok u
  | n :: ns, u => do useSeq top ns (← useNode top n u)

end

/-- What is live behind a block. -/
def liveOut (locals : Nat) (live : Array BitSet) (b : Block) : BitSet :=
  b.term.successors.foldl (fun out s => (out.union (live.getD s default)).1) (.room locals)

/-- Passes over blocks with their places, from the last to the first, and whether something
changed. -/
def pass (locals : Nat) (uses : Array Use) :
    List (Block × Nat) → Array BitSet × Bool → Array BitSet × Bool
  | [], acc => acc
  | (b, i) :: bs, (live, changed) =>
    let out := liveOut locals live b
    let (now, grew) := (live.getD i default).unionMinus out (uses.getD i default).writes
    pass locals uses bs (live.setIfInBounds i now, changed || grew)

/-- Repeats passes until nothing changes. Every pass but the last makes some set
grow, so `fuel` need not exceed the number of blocks times locals. -/
def iterate (locals : Nat) (uses : Array Use) (blocks : List (Block × Nat)) :
    (fuel : Nat) → Array BitSet → Array BitSet
  | 0, live => live
  | fuel + 1, live =>
    let (live, changed) := pass locals uses blocks (live, false)
    if changed then iterate locals uses blocks fuel live else live

end Liveness

/-- Every block leads to blocks of the machine only. -/
def Machine.isClosed (m : Machine) : Bool :=
  m.blocks.all fun b => b.term.successors.all (· < m.blocks.length)

/-- The locals live on entry to each block of a machine. The first pass already looks up the sets
of all successors, so it crashes on a block that there is not. -/
def Machine.liveness (m : Machine) : Except Abort (List BitSet) := do
  let locals := m.func.locals.length
  let none : Liveness.Use := ⟨.room locals, .room locals⟩
  let uses ← m.blocks.mapM fun b => Liveness.useSeq true b.body none
  if !m.isClosed then throw .outOfBounds
  let start := (uses.map (·.reads)).toArray
  let fuel := m.blocks.length * (locals + 1) + 1
  return (Liveness.iterate locals uses.toArray m.blocks.zipIdx.reverse fuel start).toList

end WasmShader
