import WasmShader.Proofs.CallOrder
import WasmShader.Proofs.Closure

/-!
# Functions that reach each other

The edges of the graph of a program lead from functions to functions. What the closures over
edges find is what can be reached along calls, or against them; and a component is a class of
functions that reach each other (`CallGraph.component`).
-/

namespace WasmShader.CallGraph

/-! ## Graphs of programs -/

/-- The edges of a graph lead from functions to functions, which are listed in order. -/
structure Sound (g : CallGraph) : Prop where
  ascending : g.nodes.Pairwise (· < ·)
  outside : ∀ fn, fn ∈ g.nodes ∨ g.callees fn = []
  callees : ∀ fn, g.callees fn ⊆ g.nodes
  size : (g.nodes.map fun fn => (g.callees fn).length).sum = g.size

theorem Sound.nodup {g : CallGraph} (hg : g.Sound) : g.nodes.Nodup :=
  hg.ascending.imp Nat.ne_of_lt

theorem mem_of_mem_distinct {xs : List Nat} {x : Nat} (h : x ∈ distinct xs) : x ∈ xs := by
  have hfold : ∀ (ys seen : List Nat),
      x ∈ ys.foldl (fun seen x => if seen.contains x then seen else seen ++ [x]) seen →
      x ∈ seen ∨ x ∈ ys := by
    intro ys
    induction ys with
    | nil => exact fun seen hx => .inl hx
    | cons y ys ih =>
        intro seen hx
        rcases ih _ hx with hx | hx
        · dsimp only at hx
          split at hx
          · exact .inl hx
          · rcases List.mem_append.mp hx with hx | hx
            · exact .inl hx
            · exact .inr (List.mem_cons.mpr (.inl (List.mem_singleton.mp hx)))
        · exact .inr (List.mem_cons_of_mem _ hx)
  exact (hfold xs [] h).resolve_left (List.not_mem_nil)

theorem nodup_distinct (xs : List Nat) : (distinct xs).Nodup := by
  have hfold : ∀ (ys seen : List Nat), seen.Nodup →
      (ys.foldl (fun seen x => if seen.contains x then seen else seen ++ [x]) seen).Nodup := by
    intro ys
    induction ys with
    | nil => exact fun seen hseen => hseen
    | cons y ys ih =>
        intro seen hseen
        refine ih _ ?_
        dsimp only
        split
        · exact hseen
        · next hnot =>
          rw [List.contains_iff_mem] at hnot
          exact List.nodup_append.mpr ⟨hseen, List.nodup_singleton y,
            fun a ha b hb heq => hnot (List.mem_singleton.mp hb ▸ heq ▸ ha)⟩
  exact hfold xs [] List.nodup_nil

section OfProgram

variable {p : Program} {g : CallGraph}

/-- The defined functions of a program are numbered on from its imports. -/
def Numbered (p : Program) : Prop :=
  ∀ k (f : Function), p.funcs[k]? = some f → f.index = p.imports.length + k

theorem nodes_eq (hp : Numbered p) (hg : build p = .ok g) :
    g.nodes = (List.range p.funcs.length).map (p.imports.length + ·) := by
  rw [nodes, program_of_build hg]
  refine List.ext_getElem? fun k => ?_
  rw [List.getElem?_map, List.getElem?_map]
  by_cases hk : k < p.funcs.length
  · rw [List.getElem?_range hk, List.getElem?_eq_getElem hk, Option.map_some, Option.map_some,
      hp k _ (List.getElem?_eq_getElem hk)]
  · rw [List.getElem?_eq_none (by omega), List.getElem?_eq_none (by rw [List.length_range]; omega)]
    rfl

theorem mem_nodes_iff (hp : Numbered p) (hg : build p = .ok g) {fn : Nat} :
    fn ∈ g.nodes ↔ p.isImport fn = false ∧ fn < p.numFuncs := by
  rw [nodes_eq hp hg, List.mem_map, Program.isImport, decide_eq_false_iff_not, Program.numFuncs]
  constructor
  · rintro ⟨k, hk, rfl⟩
    have := List.mem_range.mp hk
    omega
  · rintro ⟨hlow, hhigh⟩
    exact ⟨fn - p.imports.length, List.mem_range.mpr (by omega), by omega⟩

/-- The edges of a defined function, by its place. -/
theorem callees_eq (hg : build p = .ok g) :
    g.edges.size = p.funcs.length
      ∧ ∀ k, g.callees (p.imports.length + k) = g.edges.getD k [] := by
  obtain ⟨edges, hedges, hg⟩ := Program.bind_eq_ok hg
  cases hg
  have hlen := (forall₂_of_mapM hedges).length_eq
  refine ⟨hlen.symm, fun k => ?_⟩
  have hnot : p.isImport (p.imports.length + k) = false := by
    rw [Program.isImport, decide_eq_false_iff_not]; omega
  rw [CallGraph.callees, hnot, if_neg Bool.false_ne_true, Program.numImports, Nat.add_sub_cancel_left]

theorem mem_edges (hg : build p = .ok g) {k c : Nat} (hc : c ∈ g.edges.getD k []) :
    p.isImport c = false ∧ c < p.numFuncs := by
  obtain ⟨edges, hedges, hg⟩ := Program.bind_eq_ok hg
  cases hg
  rw [Array.getD_eq_getD_getElem?, List.getElem?_toArray] at hc
  cases hk : edges[k]? with
  | none => rw [hk] at hc; cases hc
  | some targets =>
      rw [hk] at hc
      obtain ⟨f, -, hf⟩ := getElem?_of_forall₂ (forall₂_of_mapM hedges).flip hk
      unfold calleesOf at hf
      split at hf
      · cases hf
      · next hfind =>
        cases hf
        obtain ⟨hcalls, himport⟩ := List.mem_filter.mp (mem_of_mem_distinct hc)
        have hrange := List.find?_eq_none.mp hfind c hcalls
        rw [decide_eq_true_eq] at hrange
        exact ⟨by rw [Bool.not_eq_true'] at himport; exact himport, by omega⟩

/-- The call graph of a program is sound. -/
theorem sound_of_numbered (hp : Numbered p) (hg : build p = .ok g) : g.Sound := by
  obtain ⟨hsize, hcallees⟩ := callees_eq hg
  have hprogram := program_of_build hg
  refine ⟨?_, fun fn => ?_, fun fn c hc => ?_, ?_⟩
  · rw [nodes_eq hp hg]
    exact List.pairwise_map.mpr (List.pairwise_lt_range.imp (Nat.add_lt_add_left · _))
  · by_cases hfn : fn ∈ g.nodes
    · exact .inl hfn
    · refine .inr ?_
      rw [mem_nodes_iff hp hg, not_and] at hfn
      cases himport : p.isImport fn with
      | true => rw [CallGraph.callees, hprogram, himport, if_pos rfl]
      | false =>
          have hlarge := hfn himport
          rw [Program.numFuncs] at hlarge
          rw [CallGraph.callees, hprogram, himport, if_neg Bool.false_ne_true,
            Array.getD_eq_getD_getElem?, Program.numImports, Array.getElem?_eq_none (by omega)]
          rfl
  · rw [mem_nodes_iff hp hg]
    cases himport : p.isImport fn with
    | true => rw [CallGraph.callees, hprogram, himport, if_pos rfl] at hc; cases hc
    | false =>
        rw [CallGraph.callees, hprogram, himport, if_neg Bool.false_ne_true] at hc
        exact mem_edges hg hc
  · have hsum : g.nodes.map (fun fn => (g.callees fn).length)
        = g.edges.toList.map List.length := by
      rw [nodes_eq hp hg, List.map_map]
      refine List.ext_getElem? fun k => ?_
      have hget : g.edges.toList[k]? = g.edges[k]? := Array.getElem?_toList
      rw [List.getElem?_map, List.getElem?_map, hget]
      by_cases hk : k < p.funcs.length
      · rw [List.getElem?_range hk, Option.map_some, Function.comp_apply, hcallees,
          Array.getD_eq_getD_getElem?, Array.getElem?_eq_getElem (by omega)]
        rfl
      · rw [List.getElem?_eq_none (by rw [List.length_range]; omega),
          Array.getElem?_eq_none (by omega)]
        rfl
    have hfold (xs : List (List Nat)) (n : Nat) :
        xs.foldl (fun n targets => n + targets.length) n = n + (xs.map List.length).sum := by
      induction xs generalizing n with
      | nil => rfl
      | cons x xs ih => rw [List.foldl_cons, ih, List.map_cons, List.sum_cons, Nat.add_assoc]
    rw [hsum, CallGraph.size, ← Array.foldl_toList, hfold, Nat.zero_add]

theorem sound_of_build (hp : p.Formed) (hg : build p = .ok g) : g.Sound :=
  sound_of_numbered hp.funcIndex hg

end OfProgram

/-! ## Reachability -/

section Reach

variable {g : CallGraph}

/-- The functions that a call from one may lead to, itself included. -/
abbrev Calls (g : CallGraph) : Nat → Nat → Prop := Reaches g.callees

theorem mem_transitiveCallees (hg : g.Sound) {sources : List Nat} {fn : Nat} :
    fn ∈ g.transitiveCallees sources ↔ ∃ a ∈ sources, g.Calls a fn := by
  rw [transitiveCallees, List.mem_mergeSort]
  refine mem_closure_iff hg.outside ?_
  rw [unseen_nil, hg.size]

/-- A caller leads to what it calls. -/
theorem mem_callers {fn caller : Nat} :
    caller ∈ g.callers fn ↔ caller ∈ g.nodes ∧ fn ∈ g.callees caller := by
  rw [callers, List.mem_filter, List.contains_iff_mem]

theorem reaches_callers_iff (hg : g.Sound) {a b : Nat} :
    Reaches g.callers a b ↔ g.Calls b a := by
  constructor
  · intro h
    induction h with
    | refl => exact .refl
    | tail _ hstep ih => exact .head (mem_callers.mp hstep).2 ih
  · intro h
    induction h using Relation.ReflTransGen.head_induction_on with
    | refl => exact .refl
    | head hstep _ ih =>
        refine .tail ih (mem_callers.mpr ⟨?_, hstep⟩)
        rcases hg.outside _ with hmem | hnone
        · exact hmem
        · rw [Leads, hnone] at hstep
          cases hstep

/-- Counting the edges at their targets gives no more of them. -/
theorem sum_callers_le (hg : g.Sound) :
    (g.nodes.map fun fn => (g.callers fn).length).sum ≤ g.size := by
  have hcount (fns : List Nat) (callers : List Nat) :
      (fns.map fun fn => (callers.filter fun c => (g.callees c).contains fn).length).sum
        = (callers.map fun c => (fns.filter fun fn => (g.callees c).contains fn).length).sum := by
    induction callers with
    | nil => simp
    | cons c cs ih =>
        rw [List.map_cons, List.sum_cons, ← ih, ← List.countP_eq_length_filter]
        have hsplit (fn : Nat) : ((c :: cs).filter fun c => (g.callees c).contains fn).length
            = (if (g.callees c).contains fn then 1 else 0)
              + (cs.filter fun c => (g.callees c).contains fn).length := by
          rw [List.filter_cons]
          split
          · rw [List.length_cons, Nat.add_comm]
          · rw [Nat.zero_add]
        simp only [hsplit, List.sum_map_add]
        congr 1
        clear ih hsplit
        induction fns with
        | nil => rfl
        | cons fn fns ih' =>
            rw [List.map_cons, List.sum_cons, List.countP_cons, ih', Nat.add_comm]
  have hle (c : Nat) : (g.nodes.filter fun fn => (g.callees c).contains fn).length
      ≤ (g.callees c).length := by
    refine (List.subperm_of_subset (hg.nodup.filter _) fun fn hfn => ?_).length_le
    exact List.contains_iff_mem.mp (List.mem_filter.mp hfn).2
  rw [← hg.size]
  change (g.nodes.map fun fn => (g.nodes.filter fun c => (g.callees c).contains fn).length).sum ≤ _
  rw [hcount]
  exact List.sum_le_sum fun c _ => hle c

theorem mem_transitiveCallers (hg : g.Sound) {targets : List Nat} {fn : Nat} :
    fn ∈ g.transitiveCallers targets ↔ ∃ b ∈ targets, g.Calls fn b := by
  have hdom (fn : Nat) : fn ∈ g.nodes ∨ g.callers fn = [] := by
    by_cases h : fn ∈ g.nodes
    · exact .inl h
    · refine .inr (List.eq_nil_iff_forall_not_mem.mpr fun c hc => ?_)
      exact h (hg.callees c (mem_callers.mp hc).2)
  have hfuel : targets.length + unseen g.callers g.nodes [] ≤ targets.length + g.size := by
    rw [unseen_nil]
    have := sum_callers_le hg
    omega
  rw [transitiveCallers, List.mem_mergeSort, mem_closure_iff hdom hfuel]
  simp only [reaches_callers_iff hg]

end Reach

/-! ## Components -/

section Components

variable {g : CallGraph}

/-- The functions that reach each other with a given one, in ascending order. -/
def component (g : CallGraph) (fn : Nat) : List Nat :=
  g.nodes.filter fun other =>
    (g.transitiveCallees [fn]).contains other && (g.transitiveCallees [other]).contains fn

theorem mem_component (hg : g.Sound) {fn other : Nat} :
    other ∈ g.component fn ↔ other ∈ g.nodes ∧ g.Calls fn other ∧ g.Calls other fn := by
  rw [component, List.mem_filter, Bool.and_eq_true, List.contains_iff_mem,
    List.contains_iff_mem, mem_transitiveCallees hg, mem_transitiveCallees hg]
  simp only [List.mem_singleton, exists_eq_left]

theorem self_mem_component (hg : g.Sound) {fn : Nat} (h : fn ∈ g.nodes) : fn ∈ g.component fn :=
  (mem_component hg).mpr ⟨h, .refl, .refl⟩

/-- Functions that reach each other have the same component. -/
theorem component_congr (hg : g.Sound) {fn other : Nat} (h : other ∈ g.component fn) :
    g.component other = g.component fn := by
  obtain ⟨-, hto, hback⟩ := (mem_component hg).mp h
  refine List.filter_congr fun x _ => ?_
  rw [Bool.eq_iff_iff, Bool.and_eq_true, Bool.and_eq_true]
  simp only [List.contains_iff_mem, mem_transitiveCallees hg, List.mem_singleton, exists_eq_left]
  exact ⟨fun h => ⟨hto.trans h.1, h.2.trans hback⟩, fun h => ⟨hback.trans h.1, h.2.trans hto⟩⟩

theorem ascending_component (hg : g.Sound) (fn : Nat) : (g.component fn).Pairwise (· < ·) :=
  hg.ascending.filter _

/-- A function that calls something is a node. -/
theorem Sound.mem_nodes_of_mem_callees (hg : g.Sound) {fn c : Nat} (hc : c ∈ g.callees fn) :
    fn ∈ g.nodes := by
  refine (hg.outside fn).resolve_right fun hnone => ?_
  rw [hnone] at hc
  cases hc

end Components

end WasmShader.CallGraph
