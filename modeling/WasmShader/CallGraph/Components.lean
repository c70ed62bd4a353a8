import WasmShader.CallGraph.Basic

/-!
# Components

Functions that call each other, directly or through others, are a component of the call graph.
One search in depth finds all components. A function that is visited gets the next number and
waits on a stack, and while it is visited so are the functions it calls. If its visit comes upon
no function that waits with a lower number, the function and all that wait above it are a
component.
-/

namespace WasmShader.CallGraph

structure Search where
  /-- The functions that have been visited, with their numbers. -/
  numbers : List (Nat × Nat) := []
  /-- The next number. -/
  next : Nat := 0
  /-- The functions that are in no component yet, the latest first. -/
  stack : List Nat := []
  /-- The components that have been found. -/
  found : List (List Nat) := []
  /-- A function did not wait when its component was to be taken off the stack. -/
  lost : Bool := false
  deriving DecidableEq, Repr, Inhabited

namespace Search

def number? (s : Search) (fn : Nat) : Option Nat := s.numbers.lookup fn

/-- Gives a function the next number. -/
def push (s : Search) (fn : Nat) : Search :=
  { s with
    numbers := (fn, s.next) :: s.numbers
    next := s.next + 1
    stack := fn :: s.stack }

/-- What waits down to a function is a component. -/
def close (s : Search) (fn : Nat) : Search :=
  { s with
    stack := (s.stack.dropWhile (· != fn)).tail
    found := s.found ++ [s.stack.takeWhile (· != fn) ++ [fn]]
    lost := s.lost || !s.stack.contains fn }

/-- Looks at a function that is called: one that has not been visited is visited now, and one
that waits counts with its number. -/
def meet (visit : Nat → Search → Nat × Search) (now : Nat × Search) (callee : Nat) :
    Nat × Search :=
  match now.2.number? callee with
  | none =>
    let (low, s) := visit callee now.2
    (min now.1 low, s)
  | some number => (if now.2.stack.contains callee then min now.1 number else now.1, now.2)

end Search

/-- Visits a function, and gives the lowest number that has been come upon. No more than `fuel`
visits are under way at a time. -/
def visit (g : CallGraph) : (fuel : Nat) → (fn : Nat) → Search → Nat × Search
  | 0, _, s => (s.next, s)
  | fuel + 1, fn, s =>
    let (low, s') := (g.callees fn).foldl (Search.meet (visit g fuel)) (s.next, s.push fn)
    (low, if low = s.next then s'.close fn else s')

def visitNew (g : CallGraph) (s : Search) (fn : Nat) : Search :=
  if (s.number? fn).isSome then s else (g.visit g.nodes.length fn s).2

def search (g : CallGraph) : Search := g.nodes.foldl g.visitNew {}

/-- The components in the order in which they are found, each in ascending order. -/
def components (g : CallGraph) : List (List Nat) := g.search.found.map (·.mergeSort (· ≤ ·))

end WasmShader.CallGraph
