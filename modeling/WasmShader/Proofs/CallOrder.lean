import WasmShader.CallGraph.Analysis
import WasmShader.Proofs.FormedProgram

/-!
# The order of calls

What the analysis of the call graph promises of direct-safe functions. Such a function does
nothing that only the host can do, and everything it calls is direct-safe and comes before
it in the order of functions. The order is that of the components of the graph: when a
component is placed, what its functions call is in the component or placed already, and a
component that calls itself takes part in recursion, so its functions are not direct-safe.
-/

namespace WasmShader

/-! ## Outcomes and lists -/

theorem eq_ok_getD {ε α : Type} {x : Except ε α} (h : x.isOk = true) (d : α) :
    x = .ok (x.toOption.getD d) := by
  cases x with
  | ok a => rfl
  | error e => cases h

theorem eq_ok_unit {ε : Type} {x : Except ε Unit} (h : x.isOk = true) : x = .ok () :=
  eq_ok_getD h ()

/-- A step for each entry that succeeds for all. -/
theorem forall₂_of_mapM {ε α β : Type} {k : α → Except ε β} {xs : List α} {ys : List β}
    (h : xs.mapM k = .ok ys) : List.Forall₂ (fun a b => k a = .ok b) xs ys := by
  induction xs generalizing ys with
  | nil => cases h; exact .nil
  | cons x xs ih =>
      rw [List.mapM_cons] at h
      obtain ⟨y, hy, h⟩ := Program.bind_eq_ok h
      obtain ⟨ys', hys, h⟩ := Program.bind_eq_ok h
      cases h
      exact .cons hy (ih hys)

theorem getElem?_of_forall₂ {α β : Type} {R : α → β → Prop} {xs : List α} {ys : List β}
    (h : List.Forall₂ R xs ys) {i : Nat} {a : α} (ha : xs[i]? = some a) :
    ∃ b, ys[i]? = some b ∧ R a b := by
  induction h generalizing i with
  | nil => cases ha
  | cons hab _ ih =>
      cases i with
      | zero => cases ha; exact ⟨_, rfl, hab⟩
      | succ i => exact ih ha

theorem mem_distinct_of_mem {xs : List Nat} {x : Nat} (h : x ∈ xs) : x ∈ distinct xs := by
  have hfold : ∀ (ys seen : List Nat), x ∈ seen ∨ x ∈ ys →
      x ∈ ys.foldl (fun seen x => if seen.contains x then seen else seen ++ [x]) seen := by
    intro ys
    induction ys with
    | nil =>
        rintro seen (hseen | hnil)
        · exact hseen
        · cases hnil
    | cons y ys ih =>
        intro seen hx
        refine ih _ ?_
        rcases hx with hx | hx
        · left
          dsimp only
          split
          · exact hx
          · exact List.mem_append_left _ hx
        · rcases List.mem_cons.mp hx with rfl | hx
          · left
            dsimp only
            split
            · next hc => exact List.contains_iff_mem.mp hc
            · exact List.mem_append_right _ (List.mem_singleton.mpr rfl)
          · exact .inr hx
  exact hfold xs [] (.inr h)

theorem idxOf?_of_mem {xs : List Nat} {x : Nat} (h : x ∈ xs) :
    xs.idxOf? x = some (xs.idxOf x) := by
  induction xs with
  | nil => cases h
  | cons y ys ih =>
      rw [List.idxOf?_cons, List.idxOf_cons]
      by_cases heq : y = x
      · rw [heq, beq_self_eq_true, if_pos rfl, cond_true]
      · have hne : (y == x) = false := beq_eq_false_iff_ne.mpr heq
        have hmem : x ∈ ys := (List.mem_cons.mp h).resolve_left (Ne.symm heq)
        rw [hne, if_neg Bool.false_ne_true, cond_false, ih hmem]
        rfl

namespace CallGraph

/-! ## The graph of a program -/

/-- The calls of defined functions are the edges of the graph. -/
theorem mem_callees {p : Program} {g : CallGraph} (hp : p.Formed) (h : build p = .ok g)
    {f : Function} (hf : f ∈ p.funcs) {target : Nat} (htarget : target ∈ f.calls)
    (himport : p.isImport target = false) : target ∈ g.callees f.index := by
  obtain ⟨edges, hedges, hg⟩ := Program.bind_eq_ok h
  cases hg
  obtain ⟨k, hk⟩ := List.mem_iff_getElem?.mp hf
  obtain ⟨callees, hcallees, hof⟩ := getElem?_of_forall₂ (forall₂_of_mapM hedges) hk
  have hindex := hp.funcIndex k f hk
  have hnot : p.isImport f.index = false := by
    rw [Program.isImport, decide_eq_false_iff_not, hindex]; omega
  have hplace : f.index - p.numImports = k := by
    rw [hindex, Program.numImports]; omega
  rw [CallGraph.callees, hnot, if_neg Bool.false_ne_true, hplace, Array.getD_eq_getD_getElem?,
    List.getElem?_toArray, hcallees]
  unfold calleesOf at hof
  split at hof
  · cases hof
  · cases hof
    refine mem_distinct_of_mem (List.mem_filter.mpr ⟨htarget, ?_⟩)
    rw [himport]
    rfl

theorem program_of_build {p : Program} {g : CallGraph} (h : build p = .ok g) : g.program = p := by
  obtain ⟨edges, -, hg⟩ := Program.bind_eq_ok h
  cases hg
  rfl

/-! ## Components in order -/

/-- Everything the component calls outside itself is placed already. -/
def IsReady (g : CallGraph) (placed component : List Nat) : Prop :=
  ∀ fn ∈ component, ∀ c ∈ g.callees fn, c ∈ component ∨ c ∈ placed

/-- The components are such that each, when its turn comes, is ready. -/
def Ordered (g : CallGraph) : (placed : List Nat) → List (List Nat) → Prop
  | _, [] => True
  | placed, c :: cs => g.IsReady placed c ∧ Ordered g (c ++ placed) cs

/-- A function's callees come before it, unless they are in one component with it. -/
theorem idxOf_lt_or_together {g : CallGraph} {comps : List (List Nat)} {placed : List Nat}
    (h : g.Ordered placed comps) {fn c : Nat} (hfn : fn ∈ comps.flatten)
    (hc : c ∈ g.callees fn) :
    c ∈ placed ∨ comps.flatten.idxOf c < comps.flatten.idxOf fn
      ∨ ∃ comp ∈ comps, fn ∈ comp ∧ c ∈ comp := by
  induction comps generalizing placed with
  | nil => cases hfn
  | cons comp comps ih =>
      obtain ⟨hready, hrest⟩ := h
      rw [List.flatten_cons] at hfn ⊢
      by_cases hmem : fn ∈ comp
      · rcases hready fn hmem c hc with hin | hplaced
        · exact .inr (.inr ⟨comp, List.mem_cons_self .., hmem, hin⟩)
        · exact .inl hplaced
      · have hfn' : fn ∈ comps.flatten := (List.mem_append.mp hfn).resolve_left hmem
        have hidx : (comp ++ comps.flatten).idxOf fn = comp.length + comps.flatten.idxOf fn :=
          List.idxOf_append_of_notMem hmem
        have hearlier (hin : c ∈ comp) :
            (comp ++ comps.flatten).idxOf c < (comp ++ comps.flatten).idxOf fn := by
          rw [hidx, List.idxOf_append_of_mem hin]
          have := List.idxOf_lt_length_of_mem hin
          omega
        rcases ih hrest hfn' with hp | hlt | ⟨comp', hcomp', htogether⟩
        · rcases List.mem_append.mp hp with hin | hplaced
          · exact .inr (.inl (hearlier hin))
          · exact .inl hplaced
        · refine .inr (.inl ?_)
          by_cases hin : c ∈ comp
          · exact hearlier hin
          · rw [hidx, List.idxOf_append_of_notMem hin]
            omega
        · exact .inr (.inr ⟨comp', List.mem_cons_of_mem _ hcomp', htogether⟩)

/-- A component with a call inside it takes part in recursion. -/
theorem isRecursive_of_callee {g : CallGraph} {comp : List Nat} {fn c : Nat} (hfn : fn ∈ comp)
    (hin : c ∈ comp) (hc : c ∈ g.callees fn) : g.isRecursive comp = true := by
  cases comp with
  | nil => cases hfn
  | cons x xs =>
      cases xs with
      | nil =>
          rw [List.mem_singleton.mp hfn, List.mem_singleton.mp hin] at hc
          exact List.contains_iff_mem.mpr hc
      | cons y zs => simp [isRecursive]

/-- A function's callees come before it, unless it is in a recursive component. -/
theorem idxOf_lt_of_ordered {g : CallGraph} {comps : List (List Nat)} {placed : List Nat}
    (h : g.Ordered placed comps) {fn c : Nat} (hfn : fn ∈ comps.flatten)
    (hc : c ∈ g.callees fn)
    (hrecursive : ∀ comp ∈ comps, fn ∈ comp → g.isRecursive comp = false) :
    c ∈ placed ∨ comps.flatten.idxOf c < comps.flatten.idxOf fn := by
  rcases idxOf_lt_or_together h hfn hc with hplaced | hlt | ⟨comp, hcomp, hmem, hin⟩
  · exact .inl hplaced
  · exact .inr hlt
  · have hnot := hrecursive comp hcomp hmem
    rw [isRecursive_of_callee hmem hin hc] at hnot
    cases hnot

/-! ## Direct-safe functions -/

theorem subset_directFrom (g : CallGraph) (blocked order safe : List Nat) :
    safe ⊆ g.directFrom blocked order safe := by
  induction order generalizing safe with
  | nil => exact fun _ h => h
  | cons fn order ih =>
      rw [directFrom]
      split
      · exact fun x hx => ih _ (List.mem_cons_of_mem _ hx)
      · exact ih safe

/-- A function is added only if it is not blocked and its callees are there. -/
theorem mem_directFrom {g : CallGraph} {blocked order safe : List Nat} {fn : Nat}
    (h : fn ∈ g.directFrom blocked order safe) :
    fn ∈ safe ∨ fn ∈ order ∧ fn ∉ blocked
      ∧ ∀ c ∈ g.callees fn, c ∈ g.directFrom blocked order safe := by
  induction order generalizing safe with
  | nil => exact .inl h
  | cons x order ih =>
      rw [directFrom] at h ⊢
      split at h
      · next hx =>
        rw [if_pos hx]
        rcases ih h with hsafe | ⟨horder, hblocked, hcallees⟩
        · rcases List.mem_cons.mp hsafe with rfl | hsafe
          · rw [Bool.and_eq_true, Bool.not_eq_true'] at hx
            refine .inr ⟨List.mem_cons_self .., ?_, fun c hc => ?_⟩
            · intro hmem
              rw [List.contains_iff_mem.mpr hmem] at hx
              cases hx.1
            · exact subset_directFrom g blocked order _ (List.mem_cons_of_mem _
                (List.contains_iff_mem.mp (List.all_eq_true.mp hx.2 c hc)))
          · exact .inl hsafe
        · exact .inr ⟨List.mem_cons_of_mem _ horder, hblocked, hcallees⟩
      · next hx =>
        rw [if_neg hx]
        rcases ih h with hsafe | ⟨horder, hblocked, hcallees⟩
        · exact .inl hsafe
        · exact .inr ⟨List.mem_cons_of_mem _ horder, hblocked, hcallees⟩

/-- The functions of recursive components. -/
theorem mem_recursive {g : CallGraph} {fn : Nat} {comp : List Nat}
    (hcomp : comp ∈ g.orderedComponents) (hrec : g.isRecursive comp = true) (hfn : fn ∈ comp) :
    fn ∈ g.analyze.groups.flatMap (·.members) := by
  obtain ⟨i, hi⟩ := List.mem_iff_getElem?.mp (List.mem_filter.mpr ⟨hcomp, hrec⟩)
  refine List.mem_flatMap.mpr ⟨⟨i, comp⟩, ?_, hfn⟩
  refine List.mem_iff_getElem?.mpr ⟨i, ?_⟩
  change ((g.orderedComponents.filter g.isRecursive).mapIdx fun id members =>
    RecursionGroup.mk id members)[i]? = _
  rw [List.getElem?_mapIdx, hi]
  rfl

theorem rank_eq_idxOf {a : Analysis} {fn : Nat} (h : fn ∈ a.order) :
    a.rank fn = a.order.idxOf fn := by
  rw [Analysis.rank, Analysis.rank?, idxOf?_of_mem h]

theorem neg_one_le_rank (a : Analysis) (fn : Nat) : -1 ≤ a.rank fn := by
  unfold Analysis.rank
  split <;> omega

/-- A direct-safe function does nothing that only the host can do. -/
theorem hostOps_of_directSafe {p : Program} {g : CallGraph} (h : build p = .ok g) {f : Function}
    (hf : f ∈ p.funcs) (hsafe : g.analyze.directSafe f.index = true) : p.hostOps f = false := by
  obtain ⟨-, hblocked, -⟩ :=
    (mem_directFrom (List.contains_iff_mem.mp hsafe)).resolve_left nofun
  rw [← Bool.not_eq_true]
  intro hops
  refine hblocked (List.mem_append_right _ ?_)
  rw [program_of_build h]
  exact List.mem_map.mpr ⟨f, List.mem_filter.mpr ⟨hf, hops⟩, rfl⟩

end CallGraph

end WasmShader
