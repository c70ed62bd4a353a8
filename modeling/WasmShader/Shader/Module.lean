import WasmShader.Shader.Stmt

/-!
# Shader modules

A module is a list of storage buffers, private variables, functions and compute
entry points. A function may only call functions in front of it, so calls never
form a cycle; `Module.validate` checks that.
-/

namespace WasmShader.Shader

/-- A storage buffer of words. -/
structure Buffer where
  name : String
  binding : UInt32
  deriving DecidableEq, Repr, Inhabited

/-- A parameter, local or private variable. Locals and private variables start
at zero. -/
structure Variable where
  name : String
  type : Ty
  deriving DecidableEq, Repr, Inhabited

structure Function where
  name : String
  params : List Variable := []
  results : List Ty := []
  locals : List Variable := []
  body : List Stmt := []
  deriving Inhabited

structure Workgroup where
  x : UInt32
  y : UInt32
  z : UInt32
  deriving DecidableEq, Repr, Inhabited

/-- A compute entry point running a function. -/
structure EntryPoint where
  name : String
  function : String
  workgroup : Workgroup
  deriving DecidableEq, Repr, Inhabited

structure Module where
  buffers : List Buffer := []
  privates : List Variable := []
  functions : List Function := []
  entryPoints : List EntryPoint := []
  deriving Inhabited

/-- The calls of a function in order. -/
def Function.calls (f : Function) : List CallSite := stmtsCalls f.body

namespace Module

/-- The place of the last function with a name. -/
def place? (m : Module) (name : String) : Option Nat :=
  (m.functions.zipIdx.reverse.find? fun (f, _) => f.name == name).map (·.2)

/-- The last function with a name. -/
def function? (m : Module) (name : String) : Option Function :=
  m.functions.reverse.find? (·.name == name)

/-- Every function with the functions it calls, in call order. -/
def callGraph (m : Module) : List (String × List String) :=
  m.functions.map fun f => (f.name, f.calls.map (·.func))

/-- No name is used twice. -/
def namesDistinct (m : Module) : Bool :=
  let names := (m.functions.map (·.name)).mergeSort (· ≤ ·)
  (names.zip (names.drop 1)).all fun (a, b) => a != b

/-- Why a call of the function at a place is not allowed. -/
def callFault? (m : Module) (place : Nat) (f : Function) (c : CallSite) : Option String :=
  match m.place? c.func with
  | none => some (f.name ++ " calls undefined function " ++ c.func)
  | some j =>
    if place ≤ j then some (f.name ++ " calls " ++ c.func ++ ", which is not defined before it")
    else match m.functions[j]? with
      | none => none
      | some g =>
        if c.args ≠ g.params.length || c.results ≠ g.results.length then
          some (f.name ++ " calls " ++ c.func ++ " with wrong arity")
        else none

/-- Why an entry point is not allowed. -/
def entryFault? (m : Module) (e : EntryPoint) : Option String :=
  match m.function? e.function with
  | none => some ("entry point " ++ e.name ++ " names undefined function " ++ e.function)
  | some f =>
    if f.params.isEmpty && f.results.isEmpty then none
    else some ("entry point " ++ e.name ++ " function " ++ e.function
      ++ " must take and return nothing")

/-- What is wrong with the calls of the module, in order. -/
def callFaults (m : Module) : List String :=
  m.functions.zipIdx.flatMap fun (f, i) => f.calls.filterMap (m.callFault? i f)

/-- Checks that names are distinct, that every call is of a function in front of
the caller with as many parameters and results, and that entry points run
functions without either. -/
def validate (m : Module) : Except Failure Unit :=
  if !m.namesDistinct then .error (.plain "duplicate function names")
  else match m.callFaults ++ m.entryPoints.filterMap m.entryFault? with
    | fault :: _ => .error (.plain fault)
    | [] => .ok ()

end Module

end WasmShader.Shader
