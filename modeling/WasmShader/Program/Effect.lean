import WasmShader.Program.Basic
import WasmShader.Text.Hex

/-!
# Stack effects

What an instruction takes from the operand stack and what it leaves there. A
stack of types is written bottom first. Branches report only their condition or
selector; what they carry depends on the label.
-/

namespace WasmShader

/-- The operand types an instruction takes, bottom first, and gives. -/
structure Effect where
  pops : List ValueType := []
  pushes : List ValueType := []
  deriving DecidableEq, Repr, Inhabited

/-- A stack of operand types, bottom first. -/
abbrev TypeStack := List ValueType

namespace TypeStack

/-- The top `n` types. -/
def top (s : TypeStack) (n : Nat) : List ValueType := s.drop (s.length - n)

/-- The stack without its top `n` types. -/
def below (s : TypeStack) (n : Nat) : TypeStack := s.take (s.length - n)

/-- The first place where two lists of types differ. -/
def firstMismatch : List ValueType → List ValueType → Option (ValueType × ValueType)
  | w :: ws, g :: gs => if w = g then firstMismatch ws gs else some (w, g)
  | _, _ => none

/-- Takes `want` from the top of the stack. -/
def pop (func : String) (want : List ValueType) (s : TypeStack) : Except Failure TypeStack :=
  if s.length < want.length then
    .error (.typeMismatch .split func (ValueType.listText want) (ValueType.listText s))
  else match firstMismatch want (s.top want.length) with
    | some (w, g) => .error (.typeMismatch .split func w.name g.name)
    | none => .ok (s.below want.length)

def apply (func : String) (e : Effect) (s : TypeStack) : Except Failure TypeStack := do
  return (← s.pop func e.pops) ++ e.pushes

end TypeStack

namespace Program

/-- A failure in the body of a function that makes the module malformed. -/
def malformedIn (f : Function) (what : String) : Except Abort α :=
  Failure.raise (.malformed .split (f.name ++ ": " ++ what))

/-- A construct of a function that is not supported. -/
def unsupportedIn (f : Function) (what : String) : Except Abort α :=
  Failure.raise (.unsupported .split f.name what)

def localType (f : Function) : Immediate → Except Abort ValueType
  | .localVar idx =>
    match f.locals[idx.toNat]? with
    | some t => .ok t
    | none => malformedIn f ("local " ++ toString idx.toNat ++ " out of range")
  | _ => .error .outOfBounds

/-- The global an instruction names, with its number. -/
def globalAt (p : Program) (f : Function) : Immediate → Except Abort (Nat × Global)
  | .globalVar idx =>
    match p.globals[idx.toNat]? with
    | some g => .ok (idx.toNat, g)
    | none => malformedIn f ("global " ++ toString idx.toNat ++ " out of range")
  | _ => .error .outOfBounds

def calleeSignature (p : Program) (f : Function) : Immediate → Except Abort Signature
  | .call target =>
    match p.signature? target.toNat with
    | some sig => .ok sig
    | none => Failure.raise (.danglingCall f.name target.toNat p.numFuncs)
  | _ => .error .outOfBounds

def indirectSignature (p : Program) (f : Function) : Immediate → Except Abort Signature
  | .callIndirect typeIdx _ =>
    match p.types[typeIdx.toNat]? with
    | none => malformedIn f ("call_indirect type " ++ toString typeIdx.toNat ++ " out of range")
    | some t =>
      match t.err with
      | some e => Failure.raise e
      | none => .ok t.sig
  | _ => .error .outOfBounds

/-- The effect of a plain instruction of a function. Dropping and selecting take
the type of their operands from the stack. -/
def effect (p : Program) (f : Function) (i : Instr) (stack : TypeStack) : Except Abort Effect :=
  match i.operation with
  | .numeric op => .ok ⟨op.signature.params, op.signature.results⟩
  | .nop | .unreachable | .br | .ret => .ok {}
  | .brIf | .brTable => .ok { pops := [.i32] }
  | .i32Const => .ok { pushes := [.i32] }
  | .i64Const => .ok { pushes := [.i64] }
  | .f32Const => .ok { pushes := [.f32] }
  | .f64Const => .ok { pushes := [.f64] }
  | .vector => .ok { pushes := [.v128] }
  | .drop =>
    match stack.getLast? with
    | none => malformedIn f "drop on empty stack"
    | some t => .ok { pops := [t] }
  | .select =>
    if stack.length < 3 then malformedIn f "select needs 3 operands"
    else do
      let t ← entry stack (stack.length - 2)
      return ⟨[t, t, .i32], [t]⟩
  | .localGet => do return { pushes := [← localType f i.imm] }
  | .localSet => do return { pops := [← localType f i.imm] }
  | .localTee => do
    let t ← localType f i.imm
    return ⟨[t], [t]⟩
  | .globalGet => do
    let (_, g) ← p.globalAt f i.imm
    return { pushes := [g.type] }
  | .globalSet => do
    let (idx, g) ← p.globalAt f i.imm
    if g.isMutable then return { pops := [g.type] }
    else malformedIn f ("global.set of immutable global " ++ toString idx)
  | .call => do
    let sig ← p.calleeSignature f i.imm
    return ⟨sig.params, sig.results⟩
  | .callIndirect => do
    let sig ← p.indirectSignature f i.imm
    return ⟨sig.params ++ [.i32], sig.results⟩
  | .memorySize => .ok { pushes := [.i32] }
  | .memoryGrow => .ok ⟨[.i32], [.i32]⟩
  | .memoryAccess =>
    unsupportedIn f ("linear memory access (opcode " ++ Text.hexLiteral 2 i.opcode.toNat ++ ")")
  | .block | .loop | .ifElse | .elseMark | .endMark | .unknown =>
    unsupportedIn f ("opcode " ++ Text.hexLiteral 2 i.opcode.toNat)

end Program

end WasmShader
