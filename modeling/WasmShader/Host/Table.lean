import WasmShader.Host.Stack
import WasmShader.Program.Basic
import WasmShader.Value.Layout

/-!
# Host functions

Operations that only the host can perform: calls of imports, indirect calls and
questions about the memory. A `HostTable` gives each a number in the order of
first request. A lane that stops with such a number on top of its stack has
yielded; `HostTable.pending` reads the request off the stack and
`HostTable.complete` writes the answer into the room the caller reserved below
its own block number.

A machine counts words in 32 bits. The counts here are numbers without a bound, so
they are those of the machine for signatures of fewer than 2^32 - 1 words.
-/

namespace WasmShader

inductive HostKind
  | importCall
  | callIndirect
  | memorySize
  | memoryGrow
  /-- A number that names no kind. -/
  | other (code : UInt8)
  deriving DecidableEq, Repr, Inhabited

namespace HostKind

def ofCode (code : UInt8) : HostKind :=
  match code.toNat with
  | 0 => .importCall
  | 1 => .callIndirect
  | 2 => .memorySize
  | 3 => .memoryGrow
  | _ => .other code

def text : HostKind → String
  | .importCall => "import"
  | .callIndirect => "call_indirect"
  | .memorySize => "memory.size"
  | .memoryGrow => "memory.grow"
  | .other code => "HostKind(" ++ toString code.toNat ++ ")"

end HostKind

/-- What makes two requests the same host function. -/
inductive HostKey
  | importCall (index : Nat)
  | callIndirect (typeIdx : Nat)
  | memory (kind : HostKind)
  deriving DecidableEq, Repr, Inhabited

structure HostFunc where
  id : BlockId
  key : HostKey
  name : String
  params : List ValueType
  results : List ValueType
  deriving DecidableEq, Repr, Inhabited

namespace HostFunc

def kind (h : HostFunc) : HostKind :=
  match h.key with
  | .importCall _ => .importCall
  | .callIndirect _ => .callIndirect
  | .memory kind => kind

/-- The number of the imported function, zero for other host functions. -/
def importIndex (h : HostFunc) : Nat :=
  match h.key with
  | .importCall index => index
  | _ => 0

/-- The number of the signature of an indirect call, zero for other host
functions. -/
def typeIndex (h : HostFunc) : Nat :=
  match h.key with
  | .callIndirect typeIdx => typeIdx
  | _ => 0

end HostFunc

/-- The host functions of a module, in the order of their numbers. -/
structure HostTable where
  layout : Layout
  funcs : List HostFunc := []
  deriving DecidableEq, Repr, Inhabited

/-- A request of a suspended lane. -/
structure Pending where
  func : HostFunc
  args : List Value
  deriving DecidableEq, Repr, Inhabited

namespace HostTable

/-- The host function for a key, added at the end of the table if it is new. -/
def request (t : HostTable) (key : HostKey) (name : String) (params results : List ValueType) :
    HostFunc × HostTable :=
  match t.funcs.find? (·.key == key) with
  | some h => (h, t)
  | none =>
    let h : HostFunc := ⟨.host t.funcs.length.toUInt32, key, name, params, results⟩
    (h, { t with funcs := t.funcs ++ [h] })

/-- The host function that calls an import. -/
def importCall (t : HostTable) (i : Import) : HostFunc × HostTable :=
  t.request (.importCall i.index) (i.module ++ "." ++ i.name) i.type.params i.type.results

/-- The host function for indirect calls of a signature. Its last parameter is
the index into the table of functions. -/
def indirect (t : HostTable) (typeIdx : Nat) (sig : Signature) : HostFunc × HostTable :=
  t.request (.callIndirect typeIdx) ("call_indirect[type " ++ toString typeIdx ++ "]")
    (sig.params ++ [.i32]) sig.results

/-- The host function for the size or the growth of the memory. -/
def memory (t : HostTable) (kind : HostKind) : HostFunc × HostTable :=
  t.request (.memory kind) kind.text (if kind = .memoryGrow then [.i32] else []) [.i32]

def lookup? (t : HostTable) (id : BlockId) : Option HostFunc :=
  if id.isHost then t.funcs[id.index.toNat]? else none

/-- The words of the arguments, below 2^32 - 1 in a signature that a machine can hold. -/
def argWords (t : HostTable) (h : HostFunc) : Nat := t.layout.sizeOf h.params

def resultWords (t : HostTable) (h : HostFunc) : Nat := t.layout.sizeOf h.results

def hostFailure (detail : String) : Failure :=
  .report { phase := .runtime, kind := .host, detail }

/-- What a lane that has stopped asks for; nothing when its stack is empty. -/
def pending (t : HostTable) (s : LaneStack) : Except Abort (Option Pending) := do
  let sp := s.sp.toNat
  if sp = 0 then return none
  let id ← s.top
  match t.lookup? id with
  | none =>
    Failure.raise (.report
      { phase := .runtime, kind := .invalidBlock
        detail := "lane exited with " ++ id.text ++ " on top of stack"
        value := some (toString id.val.toNat) })
  | some h =>
    Layout.requireKnown h.params
    let n := t.argWords h
    if sp < n + 1 then
      Failure.raise (hostFailure (h.name ++ " needs " ++ toString n
        ++ " argument words, stack holds " ++ toString (sp - 1)))
    else
      let words ← s.slice (sp - 1 - n) (sp - 1)
      return some ⟨h, ← t.layout.decodeAll h.params words⟩

/-- The first result of the wrong type, with the type it should have. -/
def wrongType? : List ValueType → List Value → Option (ValueType × ValueType)
  | want :: wants, v :: vs => if v.type = want then wrongType? wants vs else some (want, v.type)
  | _, _ => none

/-- The results have the declared number and types. -/
def checkResults (h : HostFunc) (results : List Value) : Except Failure Unit :=
  if results.length ≠ h.results.length then
    .error (hostFailure (h.name ++ " returned " ++ toString results.length ++ " values, want "
      ++ toString h.results.length))
  else match wrongType? h.results results with
    | some (want, got) => .error (.typeMismatch .runtime h.name want.name got.name)
    | none => .ok ()

/-- Answers a request: takes the request off the stack and writes the results
below the block number that is then on top. -/
def complete (t : HostTable) (p : Pending) (results : List Value) (s : LaneStack) :
    Except Abort Unit × LaneStack :=
  match checkResults p.func results, Layout.requireKnown p.func.params with
  | .error e, _ => (.error (.failed e), s)
  | _, .error e => (.error e, s)
  | .ok _, .ok _ =>
    match s.pop (t.argWords p.func + 1) with
    | .error e => (.error e, s)
    | .ok (_, s) =>
      match t.layout.encodeAll results with
      | .error e => (.error e, s)
      | .ok words =>
        let sp := s.sp.toNat
        if sp < words.length + 1 then
          (Failure.raise (hostFailure
            ("no room reserved for " ++ toString words.length ++ " result words")), s)
        else
          let place := LaneStack.headerWords + (sp - 1 - words.length)
          (.ok (), ⟨LaneStack.writeAt s.words place words⟩)

end HostTable

end WasmShader
