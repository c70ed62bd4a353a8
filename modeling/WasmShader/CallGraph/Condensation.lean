import WasmShader.CallGraph.Components

/-!
# The order of components

Components are placed one after another, callees first. A component is ready once all other
components that it calls have been placed. Of several ready ones, the one with the smallest
function goes first.
-/

namespace WasmShader.CallGraph

/-- The place of the component that a function is in. -/
def placeOf (comps : List (List Nat)) (fn : Nat) : Nat := comps.findIdx (·.contains fn)

/-- The other components that a component calls, each once. -/
def neededBy (g : CallGraph) (comps : List (List Nat)) (i : Nat) : List Nat :=
  (distinct (((comps.getD i []).flatMap g.callees).map (placeOf comps))).filter (· != i)

/-- The components that are not placed yet. -/
structure Queue where
  /-- For each component, how many of those that it needs are not placed. -/
  pending : List Nat
  /-- The components that need none that is not placed. -/
  ready : List Nat
  deriving DecidableEq, Repr, Inhabited

namespace Queue

def start (needs : List (List Nat)) : Queue :=
  ⟨needs.map (·.length), (List.range needs.length).filter fun i => (needs.getD i []).isEmpty⟩

/-- One of those that a component needs has been placed. -/
def release (q : Queue) (i : Nat) : Queue :=
  let left := q.pending.getD i 0 - 1
  ⟨q.pending.set i left, if left = 0 then q.ready ++ [i] else q.ready⟩

end Queue

def dependents (needs : List (List Nat)) (j : Nat) : List Nat :=
  (List.range needs.length).filter fun i => (needs.getD i []).contains j

/-- Places the ready component that comes first, again and again, at most `fuel` times. -/
def placeAll (needs : List (List Nat)) (first : Nat → Nat) : (fuel : Nat) → Queue → List Nat
  | 0, _ => []
  | fuel + 1, q =>
    match q.ready.find? fun i => q.ready.all fun j => first i ≤ first j with
    | none => []
    | some i =>
      i :: placeAll needs first fuel
        ((dependents needs i).foldl .release { q with ready := q.ready.erase i })

/-- The components in the order of their places. -/
def condense (g : CallGraph) (comps : List (List Nat)) : List (List Nat) :=
  let needs := (List.range comps.length).map (g.neededBy comps)
  let order := placeAll needs (fun i => (comps.getD i []).headD 0) comps.length (.start needs)
  order.map (comps.getD · [])

/-- The components of the graph, callees first. -/
def orderedComponents (g : CallGraph) : List (List Nat) := g.condense g.components

end WasmShader.CallGraph
