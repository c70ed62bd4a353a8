import WasmShader.Machine.Liveness
import WasmShader.Value.Layout

/-!
# Frames

The frame of a block is its payload followed by its block number. The payload of
the entry block is the parameters of the function; that of any other block is
the locals live on entry, in order, followed by the operand stack on entry. A
call pushes the payload of the block it comes back to without the results, leaves
room for these, pushes that block's number, the arguments and the number of the
block to call: what the callee finds on top is exactly its own frame.
-/

namespace WasmShader

structure Payload where
  /-- The saved locals, ascending. -/
  locals : List Nat
  /-- The types of the saved locals, then those of the operand stack. -/
  types : List ValueType
  /-- Where each value of the payload starts. -/
  offsets : List Nat
  words : Nat
  deriving DecidableEq, Repr, Inhabited

namespace Payload

/-- The words of the payload and the block number. -/
def frameWords (p : Payload) : Nat := p.words + 1

def text (p : Payload) : String :=
  "locals " ++ Text.bracketed (p.locals.map toString) ++ " types " ++ ValueType.listText p.types
    ++ " (" ++ toString p.words ++ " words)"

end Payload

/-- The frames of a machine, one payload for each block. -/
structure Frames where
  machine : Machine
  layout : Layout
  payloads : List Payload
  deriving Inhabited

namespace Frames

/-- The payload of a block that there is. -/
def payload (fr : Frames) (index : Nat) : Payload := fr.payloads.getD index default

def payloadOf (f : Function) (l : Layout) (b : Block) (live : BitSet) : Except Abort Payload := do
  let locals := if b.index = 0 then List.range f.type.params.length else live.toList
  let saved ← locals.mapM (entry f.locals)
  let types := saved ++ b.entry
  let (offsets, words) ← l.offsets types
  return ⟨locals, types, offsets, words⟩

/-- The words that the terminator of a block pushes once the block's own frame is
gone. -/
def pushWords (fr : Frames) (b : Block) : Nat :=
  match b.term with
  | .goto _ | .branch _ _ | .switch _ _ =>
    (b.term.edges.map fun e => (fr.payload e.target).frameWords).foldl max 0
  | .call _ args _ next | .host _ args _ next =>
    (fr.payload next).frameWords + fr.layout.sizeOf args + 1
  | .ret _ | .trap _ => 0

/-- The words that a call writes in front of the room for its results. -/
def saved (fr : Frames) (b : Block) : Nat :=
  match b.term with
  | .call _ _ results next | .host _ _ results next =>
    (fr.payload next).words - fr.layout.sizeOf results
  | _ => 0

/-- A push has to fit a stack of the given number of data words. It is of payloads
that there are and of arguments that have a representation. -/
def checkPush (fr : Frames) (stackWords : Nat) (b : Block) : Except Abort Unit := do
  let _ ← b.term.successors.mapM (entry fr.payloads)
  Layout.requireKnown b.term.args
  let need := fr.pushWords b
  if stackWords < need then
    Failure.raise (.report
      { phase := .layout, kind := .capacity, func := fr.machine.func.name
        detail := "block " ++ toString b.index ++ " pushes " ++ toString need
          ++ " words, stack holds " ++ toString stackWords
        value := some (toString need) })

/-- Lays out the blocks of a machine, all of whose pushes have to fit. -/
def build (m : Machine) (l : Layout) (stackWords : Nat) : Except Abort Frames := do
  let live ← m.liveness
  let payloads ← (m.blocks.zip live).mapM fun (b, alive) => payloadOf m.func l b alive
  let fr : Frames := ⟨m, l, payloads⟩
  m.blocks.forM (fr.checkPush stackWords)
  return fr

end Frames

end WasmShader
