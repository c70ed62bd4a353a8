import WasmShader.Program.Effect

/-!
# Type checking

`Program.check` checks the body of a function: the operands of every
instruction, what every branch carries and what every construct leaves must have
the declared types. Labels are listed innermost first, so that a branch depth is
an index.
-/

namespace WasmShader

namespace Program

/-- What the labels around a piece of code carry, the innermost first. -/
abbrev Labels := List (List ValueType)

/-- A list of types stands where another is wanted. -/
def mismatch (f : Function) (want : List ValueType) (got : TypeStack) : Except Abort α :=
  Failure.raise (.typeMismatch .split f.name (ValueType.listText want) (ValueType.listText got))

/-- The types carried to the label at a depth. -/
def labelAt (f : Function) (labels : Labels) (depth : UInt32) : Except Abort (List ValueType) :=
  match labels[depth.toNat]? with
  | some types => .ok types
  | none =>
    malformedIn f ("branch depth " ++ toString depth.toNat ++ " exceeds nesting "
      ++ toString labels.length)

/-- The top of the stack holds `want`. -/
def carries (f : Function) (stack : TypeStack) (want : List ValueType) : Except Abort Unit :=
  if stack.length < want.length || stack.top want.length ≠ want then mismatch f want stack
  else .ok ()

/-- Every label of a table branch carries `want`. -/
def checkLabels (f : Function) (labels : Labels) (want : List ValueType) :
    List UInt32 → Except Abort Unit
  | [] => .ok ()
  | depth :: rest => do
    if (← labelAt f labels depth) ≠ want then malformedIn f "br_table labels carry different types"
    else checkLabels f labels want rest

/-- Checks an instruction and gives the stack behind it, or nothing when control
never gets there. -/
def checkInstr (p : Program) (f : Function) (labels : Labels) (i : Instr) (stack : TypeStack) :
    Except Abort (Option TypeStack) := do
  let effect ← p.effect f i stack
  let stack ← liftFailure (stack.apply f.name effect)
  match i.operation with
  | .br | .brIf =>
    match i.imm with
    | .branch depth =>
      carries f stack (← labelAt f labels depth)
      return if i.operation = .br then none else some stack
    | _ => .error .outOfBounds
  | .brTable =>
    match i.imm with
    | .branchTable depths fallback =>
      let want ← labelAt f labels fallback
      checkLabels f labels want depths
      carries f stack want
      return none
    | _ => .error .outOfBounds
  | .ret =>
    carries f stack f.type.results
    return none
  | .unreachable => return none
  | _ => return some stack

mutual

/-- Checks a node and gives the stack behind it, or nothing when control never
gets there. -/
def checkNode (p : Program) (f : Function) (labels : Labels) :
    Node → TypeStack → Except Abort (Option TypeStack)
  | .instr i, stack => p.checkInstr f labels i stack
  | .block loop sig body, stack => do
    let stack ← liftFailure (stack.pop f.name sig.params)
    checkSeq p f (labelTypes loop sig :: labels) sig.results body sig.params
    return some (stack ++ sig.results)
  | .ifThen sig body, stack => do
    let stack ← liftFailure (stack.pop f.name [.i32])
    let stack ← liftFailure (stack.pop f.name sig.params)
    if sig.params ≠ sig.results then malformedIn f "if without else must not change the stack"
    else
      checkSeq p f (sig.results :: labels) sig.results body sig.params
      return some (stack ++ sig.results)
  | .ifElse sig body alternative, stack => do
    let stack ← liftFailure (stack.pop f.name [.i32])
    let stack ← liftFailure (stack.pop f.name sig.params)
    checkSeq p f (sig.results :: labels) sig.results body sig.params
    checkSeq p f (sig.results :: labels) sig.results alternative sig.params
    return some (stack ++ sig.results)

/-- Checks a sequence that has to end with exactly `results` on the stack. -/
def checkSeq (p : Program) (f : Function) (labels : Labels) (results : List ValueType) :
    List Node → TypeStack → Except Abort Unit
  | [], stack => if stack = results then .ok () else mismatch f results stack
  | n :: ns, stack => do
    match ← checkNode p f labels n stack with
    | none => return ()
    | some stack => checkSeq p f labels results ns stack

end

def check (p : Program) (f : Function) : Except Abort Unit :=
  match f.body with
  | .error e => Failure.raise e
  | .ok body => p.checkSeq f [f.type.results] f.type.results body []

end Program

end WasmShader
