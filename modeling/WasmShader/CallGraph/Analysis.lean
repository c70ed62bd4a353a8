import WasmShader.CallGraph.Condensation

/-!
# Recursion

Functions that call each other in a cycle form a recursion group. The analysis
finds the groups, orders all functions with callees before callers, and decides
for each function how it can run. A function is direct-safe if it can run to its
end as an ordinary call: it is in no group, does nothing only the host can do and
calls direct-safe functions only. It needs the stack machine if it is in or
reachable from a group, or can reach a group or a host operation.
-/

namespace WasmShader

/-- Functions that call each other transitively, in ascending order. -/
structure RecursionGroup where
  id : Nat
  members : List Nat
  deriving DecidableEq, Repr, Inhabited

structure Analysis where
  graph : CallGraph
  /-- The recursion groups, in the order of the functions. -/
  groups : List RecursionGroup
  /-- Every defined function, callees first. -/
  order : List Nat
  /-- The functions in or reachable from a group. -/
  reachable : List Nat
  /-- The functions that perform a host operation themselves. -/
  yields : List Nat
  /-- The functions that need the stack machine. -/
  machine : List Nat
  /-- The functions that can run as ordinary calls. -/
  direct : List Nat
  deriving Inhabited

namespace CallGraph

def isSelfRecursive (g : CallGraph) (fn : Nat) : Bool := (g.callees fn).contains fn

/-- A component whose functions take part in recursion. -/
def isRecursive (g : CallGraph) : List Nat → Bool
  | [fn] => g.isSelfRecursive fn
  | members => 1 < members.length

/-- Adds to `safe` the functions of `order` that can run as ordinary calls. -/
def directFrom (g : CallGraph) (blocked : List Nat) : (order safe : List Nat) → List Nat
  | [], safe => safe
  | fn :: rest, safe =>
    if !blocked.contains fn && (g.callees fn).all safe.contains then
      directFrom g blocked rest (fn :: safe)
    else directFrom g blocked rest safe

def analyze (g : CallGraph) : Analysis :=
  let comps := g.orderedComponents
  let groups := (comps.filter g.isRecursive).mapIdx fun id members => ⟨id, members⟩
  let order := comps.flatten
  let recursive := groups.flatMap (·.members)
  let yields := (g.program.funcs.filter g.program.hostOps).map (·.index)
  let reachable := g.transitiveCallees recursive
  { graph := g
    groups
    order
    reachable
    yields
    machine := distinct (g.transitiveCallers (recursive ++ yields) ++ reachable)
    direct := g.directFrom (recursive ++ yields) order [] }

/-- Analyses a call graph. A search that takes the functions of a component off an empty stack
crashes. -/
def analysis (g : CallGraph) : Except Abort Analysis :=
  if g.search.lost then .error .outOfBounds else .ok g.analyze

end CallGraph

namespace Analysis

def groupOf? (a : Analysis) (fn : Nat) : Option RecursionGroup :=
  a.groups.find? (·.members.contains fn)

/-- The place of a function in the order; imports and unknown functions have
none. -/
def rank? (a : Analysis) (fn : Nat) : Option Nat := a.order.idxOf? fn

/-- The place of a function in the order, `-1` without one. -/
def rank (a : Analysis) (fn : Nat) : Int :=
  match a.rank? fn with
  | some r => r
  | none => -1

def reachableFromGroup (a : Analysis) (fn : Nat) : Bool := a.reachable.contains fn

def hostYields (a : Analysis) (fn : Nat) : Bool := a.yields.contains fn

def needsMachine (a : Analysis) (fn : Nat) : Bool := a.machine.contains fn

def directSafe (a : Analysis) (fn : Nat) : Bool := a.direct.contains fn

/-- A call can be an ordinary one: the callee is direct-safe, which puts it
before the caller. -/
def canCallDirect (a : Analysis) (caller callee : Nat) : Bool :=
  a.directSafe callee && a.rank callee < a.rank caller

/-- The functions that need the stack machine, callees first. -/
def machineSet (a : Analysis) : List Nat := a.order.filter a.needsMachine

end Analysis

end WasmShader
