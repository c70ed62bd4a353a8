import WasmShader.Program.Basic

/-!
# The call graph

The direct calls between the defined functions of a program. Calls of imports,
indirect calls and questions about the memory go to the host and are no edges.
-/

namespace WasmShader

/-- The direct calls of a program: for each defined function, in order, the
defined functions it calls, each once and in order of first appearance. -/
structure CallGraph where
  program : Program
  edges : Array (List Nat)
  deriving Inhabited

/-- A list without the later copies of its entries. -/
def distinct [BEq α] (xs : List α) : List α :=
  xs.foldl (fun seen x => if seen.contains x then seen else seen ++ [x]) []

namespace CallGraph

/-- The defined functions that a function calls. A call outside the functions of
the module is a failure. -/
def calleesOf (p : Program) (f : Function) : Except Failure (List Nat) :=
  match f.calls.find? fun target => p.numFuncs ≤ target with
  | some target => .error (.danglingCall f.name target p.numFuncs)
  | none => .ok (distinct (f.calls.filter fun target => !p.isImport target))

def build (p : Program) : Except Failure CallGraph := do
  return ⟨p, (← p.funcs.mapM (calleesOf p)).toArray⟩

/-- The numbers of the defined functions, in order. -/
def nodes (g : CallGraph) : List Nat := g.program.funcs.map (·.index)

def callees (g : CallGraph) (fn : Nat) : List Nat :=
  if g.program.isImport fn then [] else g.edges.getD (fn - g.program.numImports) []

def callers (g : CallGraph) (fn : Nat) : List Nat :=
  g.nodes.filter fun caller => (g.callees caller).contains fn

/-- The number of edges. -/
def size (g : CallGraph) : Nat := g.edges.foldl (fun n targets => n + targets.length) 0

/-- Everything that can be reached from the functions of `work` and is not in
`seen`, together with `seen`. A step takes one function from `work` and puts the
successors of a new one there, so `fuel` need not exceed the length of `work`
and the number of edges together. -/
def closure (next : Nat → List Nat) : (fuel : Nat) → (work seen : List Nat) → List Nat
  | 0, _, seen | _, [], seen => seen
  | fuel + 1, fn :: work, seen =>
    if seen.contains fn then closure next fuel work seen
    else closure next fuel (next fn ++ work) (fn :: seen)

/-- The functions reachable from `sources`, themselves included, in ascending
order. -/
def transitiveCallees (g : CallGraph) (sources : List Nat) : List Nat :=
  (closure g.callees (sources.length + g.size) sources []).mergeSort (· ≤ ·)

/-- The functions that reach one of `targets`, themselves included, in ascending
order. -/
def transitiveCallers (g : CallGraph) (targets : List Nat) : List Nat :=
  (closure g.callers (targets.length + g.size) targets []).mergeSort (· ≤ ·)

end CallGraph

end WasmShader
