import WasmShader.Proofs.ComponentSearch

/-!
# Components are placed callees first

Of the components that are ready the one with the smallest function is placed, again and again,
until all are placed (`Greedy`). This says where each component goes, so it does not matter in which
order the components are given. The queue counts for each component how many of those that it needs
are not placed (`Queue.Holds`). It does not run dry: of the components that are not placed, one that
reaches the fewest functions is ready.
-/

namespace WasmShader.CallGraph

variable {g : CallGraph}

/-! ## Orders of components -/

/-- The component is not placed, and all others that it calls are. -/
def Ready (g : CallGraph) (placed : List (List Nat)) (c : List Nat) : Prop :=
  c ∈ g.components ∧ c ∉ placed ∧ g.IsReady placed.flatten c

/-- Of the ready components, the one with the smallest function is placed next, until all are
placed. -/
inductive Greedy (g : CallGraph) : (placed order : List (List Nat)) → Prop
  | done {placed : List (List Nat)} : (∀ c ∈ g.components, c ∈ placed) → Greedy g placed []
  | place {placed order : List (List Nat)} {c : List Nat} : g.Ready placed c →
      (∀ d, g.Ready placed d → c.headD 0 ≤ d.headD 0) → Greedy g (placed ++ [c]) order →
      Greedy g placed (c :: order)

namespace Greedy

variable {placed order : List (List Nat)}

/-- All components that are not placed are in the order. -/
theorem mem_iff (h : g.Greedy placed order) {c : List Nat} :
    c ∈ order ↔ c ∈ g.components ∧ c ∉ placed := by
  induction h with
  | done hall =>
      constructor
      · intro hc
        cases hc
      · exact fun hc => absurd (hall c hc.1) hc.2
  | @place placed order d hready _ _ ih =>
      rw [List.mem_cons, ih, List.mem_append, List.mem_singleton, not_or]
      constructor
      · rintro (rfl | ⟨hc, hnot, -⟩)
        · exact ⟨hready.1, hready.2.1⟩
        · exact ⟨hc, hnot⟩
      · rintro ⟨hc, hnot⟩
        by_cases heq : c = d
        · exact .inl heq
        · exact .inr ⟨hc, hnot, heq⟩

theorem nodup (h : g.Greedy placed order) : order.Nodup := by
  induction h with
  | done => exact List.nodup_nil
  | place _ _ hrest ih =>
      refine List.nodup_cons.mpr ⟨fun hc => ?_, ih⟩
      exact (hrest.mem_iff.mp hc).2 (List.mem_append_right _ (List.mem_singleton.mpr rfl))

/-- What a component calls outside itself comes before it. -/
theorem ordered (h : g.Greedy placed order) {fns : List Nat} (hfns : placed.flatten ⊆ fns) :
    g.Ordered fns order := by
  induction h generalizing fns with
  | done => trivial
  | @place placed order c hready _ _ ih =>
      refine ⟨fun fn hfn x hx => (hready.2.2 fn hfn x hx).imp_right fun h => hfns h, ih ?_⟩
      rw [List.flatten_append, List.flatten_singleton]
      exact List.append_subset.mpr ⟨fun x hx => List.mem_append_right c (hfns hx),
        List.subset_append_left c fns⟩

/-- At every step, the ready component with the smallest function is placed. -/
theorem next {before after : List (List Nat)} {c : List Nat}
    (h : g.Greedy placed (before ++ c :: after)) :
    g.Ready (placed ++ before) c
      ∧ ∀ d, g.Ready (placed ++ before) d → c.headD 0 ≤ d.headD 0 := by
  induction before generalizing placed with
  | nil =>
      rw [List.append_nil]
      cases h with
      | place hready hfirst _ => exact ⟨hready, hfirst⟩
  | cons b before ih =>
      cases h with
      | place _ _ hrest =>
          rw [List.append_cons]
          exact ih hrest

/-- There is one such order. -/
theorem unique (hg : g.Sound) {order' : List (List Nat)} (h : g.Greedy placed order)
    (h' : g.Greedy placed order') : order = order' := by
  induction h generalizing order' with
  | done hall =>
      cases h' with
      | done => rfl
      | place hready => exact absurd (hall _ hready.1) hready.2.1
  | @place placed order c hready hfirst _ ih =>
      cases h' with
      | done hall => exact absurd (hall c hready.1) hready.2.1
      | @place _ order' c' hready' hfirst' hrest' =>
          have hhead : c.headD 0 = c'.headD 0 :=
            Nat.le_antisymm (hfirst c' hready') (hfirst' c hready)
          have hmem {d : List Nat} (hd : d ∈ g.components) : d.headD 0 ∈ d := by
            cases d with
            | nil => exact absurd rfl (nonempty_of_mem_components hg hd)
            | cons x xs => exact List.mem_cons_self
          obtain rfl : c = c' :=
            eq_of_mem_components hg hready.1 hready'.1 (hmem hready.1) (hhead ▸ hmem hready'.1)
          rw [ih hrest']

end Greedy

/-! ## Some component is ready -/

/-- How many functions the functions of a component can lead to. -/
def reach (g : CallGraph) (c : List Nat) : Nat := (g.transitiveCallees c).toFinset.card

/-- A component reaches fewer functions than one with a function that calls into it. -/
theorem reach_lt (hg : g.Sound) {fn c : Nat} (hfn : fn ∈ g.nodes) (hc : c ∈ g.callees fn)
    (hnot : c ∉ g.component fn) : g.reach (g.component c) < g.reach (g.component fn) := by
  have hcnode := hg.callees fn hc
  have hstep : g.Calls fn c := .single hc
  have hreach {a x : Nat} (ha : a ∈ g.nodes) :
      x ∈ (g.transitiveCallees (g.component a)).toFinset ↔ g.Calls a x := by
    rw [List.mem_toFinset, mem_transitiveCallees hg]
    exact ⟨fun ⟨b, hb, hbx⟩ => ((mem_component hg).mp hb).2.1.trans hbx,
      fun h => ⟨a, self_mem_component hg ha, h⟩⟩
  refine Finset.card_lt_card (Finset.ssubset_iff_of_subset ?_ |>.mpr ⟨fn, ?_, ?_⟩)
  · intro x hx
    rw [hreach hcnode] at hx
    rw [hreach hfn]
    exact hstep.trans hx
  · rw [hreach hfn]
  · rw [hreach hcnode]
    exact fun h => hnot ((mem_component hg).mpr ⟨hcnode, hstep, h⟩)

/-- As long as a component is not placed, one is ready. -/
theorem exists_ready (hg : g.Sound) {placed : List (List Nat)} {c : List Nat}
    (hc : c ∈ g.components) (hnot : c ∉ placed) : ∃ d, g.Ready placed d := by
  obtain ⟨d, hd, hmin⟩ := Finset.exists_min_image
    (g.components.filter (!placed.contains ·)).toFinset g.reach
    ⟨c, List.mem_toFinset.mpr (List.mem_filter.mpr ⟨hc, by simpa using hnot⟩)⟩
  obtain ⟨hd, hdnot⟩ := List.mem_filter.mp (List.mem_toFinset.mp hd)
  refine ⟨d, hd, by simpa using hdnot, fun fn hfn x hx => ?_⟩
  obtain rfl := component_of_mem hg hd hfn
  rw [or_iff_not_imp_left]
  intro hout
  have hxnode := hg.callees fn hx
  refine List.mem_flatten.mpr ⟨g.component x, ?_, self_mem_component hg hxnode⟩
  -- A component that is called and not placed would reach fewer functions.
  by_contra hwaits
  have hle := hmin (g.component x) (List.mem_toFinset.mpr (List.mem_filter.mpr
    ⟨component_mem hg hxnode, by simpa using hwaits⟩))
  have hlt := reach_lt hg ((mem_component hg).mp hfn).1 hx hout
  omega

/-! ## The queue -/

/-- How many of `xs` are not in `done`. -/
def left (xs done : List Nat) : Nat := (xs.filter (!done.contains ·)).length

theorem left_eq_zero {xs done : List Nat} : left xs done = 0 ↔ xs ⊆ done := by
  rw [left, List.length_eq_zero_iff, List.filter_eq_nil_iff]
  refine forall₂_congr fun x _ => ?_
  rw [Bool.not_eq_true', Bool.not_eq_false, List.contains_iff_mem]

theorem left_snoc {xs done : List Nat} {i : Nat} (hnodup : xs.Nodup) (hi : i ∉ done) :
    left xs (done ++ [i]) = if i ∈ xs then left xs done - 1 else left xs done := by
  have hsplit : xs.filter (!(done ++ [i]).contains ·) = (xs.filter (!done.contains ·)).erase i := by
    rw [(hnodup.filter _).erase_eq_filter, List.filter_filter]
    refine List.filter_congr fun x _ => ?_
    rw [Bool.eq_iff_iff]
    simp [and_comm]
  have hmem : i ∈ xs.filter (!done.contains ·) ↔ i ∈ xs := by
    rw [List.mem_filter]
    simpa using fun _ => hi
  rw [left, hsplit, List.length_erase, left]
  simp only [hmem]

section Queue

variable {needs : List (List Nat)} {done : List Nat} {q : Queue}

/-- What is not placed, but needs nothing that is not placed. -/
def Free (needs : List (List Nat)) (done : List Nat) (i : Nat) : Prop :=
  i < needs.length ∧ i ∉ done ∧ needs.getD i [] ⊆ done

/-- The queue is the one when the components of `done` have been placed. -/
structure Queue.Holds (needs : List (List Nat)) (done : List Nat) (q : Queue) : Prop where
  bound : ∀ d ∈ done, d < needs.length
  closed : ∀ d ∈ done, needs.getD d [] ⊆ done
  length : q.pending.length = needs.length
  pending : ∀ i, q.pending.getD i 0 = left (needs.getD i []) done
  ready : ∀ i, i ∈ q.ready ↔ Free needs done i
  nodup : q.ready.Nodup

/-- Releasing each of several that are in the queue. -/
theorem foldl_release (js : List Nat) (hnodup : js.Nodup) (hlt : ∀ j ∈ js, j < q.pending.length) :
    (js.foldl .release q).pending.length = q.pending.length
      ∧ (∀ k, (js.foldl .release q).pending.getD k 0
        = if k ∈ js then q.pending.getD k 0 - 1 else q.pending.getD k 0)
      ∧ (js.foldl .release q).ready = q.ready ++ js.filter (q.pending.getD · 0 - 1 = 0) := by
  induction js generalizing q with
  | nil => exact ⟨rfl, fun k => by rw [if_neg List.not_mem_nil]; rfl, (List.append_nil _).symm⟩
  | cons j js ih =>
      obtain ⟨hnot, hnodup⟩ := List.nodup_cons.mp hnodup
      have hj : j < q.pending.length := hlt j List.mem_cons_self
      have hlength : (q.release j).pending.length = q.pending.length := List.length_set
      have hself : (q.release j).pending.getD j 0 = q.pending.getD j 0 - 1 := by
        rw [Queue.release, List.getD_eq_getElem?_getD, List.getElem?_set_self hj]
        rfl
      have hother {k : Nat} (hne : k ≠ j) :
          (q.release j).pending.getD k 0 = q.pending.getD k 0 := by
        rw [Queue.release, List.getD_eq_getElem?_getD, List.getElem?_set_ne hne.symm,
          ← List.getD_eq_getElem?_getD]
      obtain ⟨ihlength, ihpending, ihready⟩ := ih (q := q.release j) hnodup fun k hk => by
        rw [hlength]
        exact hlt k (List.mem_cons_of_mem j hk)
      rw [List.foldl_cons]
      refine ⟨ihlength.trans hlength, fun k => ?_, ?_⟩
      · rw [ihpending]
        by_cases heq : k = j
        · rw [heq, if_neg hnot, hself, if_pos List.mem_cons_self]
        · rw [hother heq]
          simp only [List.mem_cons, heq, false_or]
      · rw [ihready, List.filter_cons]
        have hrest : js.filter (fun k => decide ((q.release j).pending.getD k 0 - 1 = 0))
            = js.filter (fun k => decide (q.pending.getD k 0 - 1 = 0)) := by
          refine List.filter_congr fun k hk => ?_
          rw [hother fun heq => hnot (heq ▸ hk)]
        rw [hrest]
        by_cases hzero : q.pending.getD j 0 - 1 = 0
        · rw [if_pos (decide_eq_true hzero), Queue.release, if_pos hzero, List.append_assoc,
            List.singleton_append]
        · rw [if_neg (by rw [decide_eq_true_eq]; exact hzero), Queue.release, if_neg hzero]

theorem mem_dependents {i k : Nat} :
    k ∈ dependents needs i ↔ k < needs.length ∧ i ∈ needs.getD k [] := by
  rw [dependents, List.mem_filter, List.mem_range, List.contains_iff_mem]

theorem holds_start : Queue.Holds needs [] (.start needs) := by
  refine ⟨fun d hd => absurd hd List.not_mem_nil, fun d hd => absurd hd List.not_mem_nil,
    List.length_map _, fun i => ?_, fun i => ?_, List.nodup_range.filter _⟩
  · have hall (xs : List Nat) : left xs [] = xs.length :=
      congrArg List.length (List.filter_eq_self.mpr fun _ _ => rfl)
    rw [hall, Queue.start]
    simp only [List.getD_eq_getElem?_getD, List.getElem?_map]
    cases needs[i]? <;> rfl
  · rw [Queue.start, List.mem_filter, List.mem_range, Free, List.isEmpty_iff]
    exact and_congr_right fun _ => ⟨fun h => ⟨List.not_mem_nil, by rw [h]; exact List.nil_subset _⟩,
      fun h => List.subset_nil.mp h.2⟩

/-- Placing one that is ready. -/
theorem Queue.Holds.place (h : q.Holds needs done) (hneeds : ∀ i, (needs.getD i []).Nodup) {i : Nat}
    {ready : List Nat} (hperm : (i :: ready).Perm q.ready) :
    Queue.Holds needs (done ++ [i]) ((dependents needs i).foldl .release { q with ready }) := by
  have hmemReady (k : Nat) : k ∈ i :: ready ↔ Free needs done k := hperm.mem_iff.trans (h.ready k)
  obtain ⟨hinot, hnodup⟩ := List.nodup_cons.mp (hperm.nodup_iff.mpr h.nodup)
  obtain ⟨hi, hidone, hineeds⟩ := (hmemReady i).mp List.mem_cons_self
  obtain ⟨hlength, hpending, hready⟩ := foldl_release (q := { q with ready }) (dependents needs i)
    (List.nodup_range.filter _) fun j hj => h.length ▸ (mem_dependents.mp hj).1
  have hclosed : ∀ d ∈ done ++ [i], needs.getD d [] ⊆ done := by
    intro d hd
    rcases List.mem_append.mp hd with hd | hd
    · exact h.closed d hd
    · rw [List.mem_singleton.mp hd]
      exact hineeds
  have hcount (k : Nat) : left (needs.getD k []) (done ++ [i])
      = if i ∈ needs.getD k [] then q.pending.getD k 0 - 1 else q.pending.getD k 0 := by
    rw [left_snoc (hneeds k) hidone, ← h.pending k]
  refine
    { bound := fun d hd => ?_
      closed := fun d hd x hx => List.mem_append_left _ (hclosed d hd hx)
      length := hlength.trans h.length
      pending := fun k => ?_
      ready := fun k => ?_
      nodup := ?_ }
  · rcases List.mem_append.mp hd with hd | hd
    · exact h.bound d hd
    · exact List.mem_singleton.mp hd ▸ hi
  · rw [hpending, hcount]
    refine if_congr ?_ rfl rfl
    rw [mem_dependents]
    refine and_iff_right_of_imp fun hmem => ?_
    by_contra hlt
    rw [List.getD_eq_default _ _ (Nat.le_of_not_lt hlt)] at hmem
    cases hmem
  · rw [hready, List.mem_append, List.mem_filter, decide_eq_true_eq, mem_dependents]
    constructor
    · rintro (hk | ⟨⟨hk, hin⟩, hzero⟩)
      · obtain ⟨hk', hdone, hsub⟩ := (hmemReady k).mp (List.mem_cons_of_mem i hk)
        refine ⟨hk', ?_, fun x hx => List.mem_append_left _ (hsub hx)⟩
        rw [List.mem_append, List.mem_singleton, not_or]
        exact ⟨hdone, fun heq => hinot (heq ▸ hk)⟩
      · refine ⟨hk, fun hdone => hidone (hclosed k hdone hin), left_eq_zero.mp ?_⟩
        rw [hcount, if_pos hin]
        exact hzero
    · rintro ⟨hk, hdone, hsub⟩
      rw [List.mem_append, List.mem_singleton, not_or] at hdone
      by_cases hin : i ∈ needs.getD k []
      · refine .inr ⟨⟨hk, hin⟩, ?_⟩
        have hzero := left_eq_zero.mpr hsub
        rw [hcount, if_pos hin] at hzero
        exact hzero
      · refine .inl (((List.mem_cons.mp ((hmemReady k).mpr ⟨hk, hdone.1, fun x hx => ?_⟩))).resolve_left
          hdone.2)
        refine (List.mem_append.mp (hsub hx)).resolve_right fun hlast => ?_
        exact hin (List.mem_singleton.mp hlast ▸ hx)
  · rw [hready]
    refine List.nodup_append.mpr ⟨hnodup, (List.nodup_range.filter _).filter _, ?_⟩
    rintro k hk _ hk' rfl
    obtain ⟨-, hin⟩ := mem_dependents.mp (List.mem_filter.mp hk').1
    obtain ⟨-, -, hsub⟩ := (hmemReady k).mp (List.mem_cons_of_mem i hk)
    exact hidone (hsub hin)

end Queue

/-! ## Placing components -/

section Condense

variable {comps : List (List Nat)} {done : List Nat} {i : Nat}

/-- The component at a place of the list. -/
def compAt (comps : List (List Nat)) (i : Nat) : List Nat := comps.getD i []

/-- What each component of the list needs. -/
def needsOf (g : CallGraph) (comps : List (List Nat)) : List (List Nat) :=
  (List.range comps.length).map (g.neededBy comps)

theorem length_needsOf : (g.needsOf comps).length = comps.length := by
  rw [needsOf, List.length_map, List.length_range]

theorem needsOf_getD (hi : i < comps.length) :
    (g.needsOf comps).getD i [] = g.neededBy comps i := by
  rw [needsOf, List.getD_eq_getElem?_getD, List.getElem?_map, List.getElem?_range hi]
  rfl

theorem nodup_needsOf (i : Nat) : ((g.needsOf comps).getD i []).Nodup := by
  by_cases hi : i < comps.length
  · rw [needsOf_getD hi]
    exact (nodup_distinct _).filter _
  · rw [List.getD_eq_default _ _ (by rw [length_needsOf]; omega)]
    exact List.nodup_nil

theorem compAt_eq (hi : i < comps.length) : compAt comps i = comps[i] := by
  rw [compAt, List.getD_eq_getElem _ _ hi]

section

variable (hg : g.Sound) (hcomps : comps.Perm g.components)
include hcomps

theorem compAt_mem (hi : i < comps.length) : compAt comps i ∈ g.components := by
  rw [compAt_eq hi]
  exact hcomps.mem_iff.mp (List.getElem_mem hi)

theorem exists_compAt {c : List Nat} (hc : c ∈ g.components) :
    ∃ i < comps.length, compAt comps i = c := by
  obtain ⟨i, hi, heq⟩ := List.getElem_of_mem (hcomps.mem_iff.mpr hc)
  exact ⟨i, hi, (compAt_eq hi).trans heq⟩

include hg

theorem compAt_inj {j : Nat} (hi : i < comps.length) (hj : j < comps.length)
    (h : compAt comps i = compAt comps j) : i = j := by
  rw [compAt_eq hi, compAt_eq hj] at h
  exact (hcomps.nodup_iff.mpr (nodup_components hg)).getElem_inj_iff.mp h

/-- The place of the component of a function. -/
theorem placeOf_eq_iff {fn j : Nat} (hfn : fn ∈ g.nodes) :
    placeOf comps fn = j ↔ j < comps.length ∧ fn ∈ compAt comps j := by
  have hplace : placeOf comps fn < comps.length ∧ fn ∈ compAt comps (placeOf comps fn) := by
    have hlt : placeOf comps fn < comps.length := by
      refine List.findIdx_lt_length_of_exists ⟨g.component fn, ?_, ?_⟩
      · exact hcomps.mem_iff.mpr (component_mem hg hfn)
      · exact List.contains_iff_mem.mpr (self_mem_component hg hfn)
    refine ⟨hlt, ?_⟩
    rw [compAt_eq hlt]
    exact List.contains_iff_mem.mp
      (@List.findIdx_getElem _ (fun c : List Nat => c.contains fn) comps hlt)
  constructor
  · rintro rfl
    exact hplace
  · rintro ⟨hj, hmem⟩
    exact compAt_inj hg hcomps hplace.1 hj (eq_of_mem_components hg
      (compAt_mem hcomps hplace.1) (compAt_mem hcomps hj) hplace.2 hmem)

/-- What a component needs are the others that it calls. -/
theorem mem_neededBy {j : Nat} :
    j ∈ g.neededBy comps i ↔ j ≠ i ∧ j < comps.length
      ∧ ∃ fn ∈ compAt comps i, ∃ c ∈ g.callees fn, c ∈ compAt comps j := by
  rw [neededBy, List.mem_filter, bne_iff_ne, and_comm]
  refine and_congr_right fun _ => ?_
  constructor
  · intro hj
    obtain ⟨c, hc, hplace⟩ := List.mem_map.mp (mem_of_mem_distinct hj)
    obtain ⟨fn, hfn, hc⟩ := List.mem_flatMap.mp hc
    obtain ⟨hlt, hmem⟩ := (placeOf_eq_iff hg hcomps (hg.callees fn hc)).mp hplace
    exact ⟨hlt, fn, hfn, c, hc, hmem⟩
  · rintro ⟨hlt, fn, hfn, c, hc, hmem⟩
    refine mem_distinct_of_mem (List.mem_map.mpr ⟨c, List.mem_flatMap.mpr ⟨fn, hfn, hc⟩, ?_⟩)
    exact (placeOf_eq_iff hg hcomps (hg.callees fn hc)).mpr ⟨hlt, hmem⟩

/-- A place is free when its component is ready. -/
theorem free_iff (hdone : ∀ d ∈ done, d < comps.length) (hi : i < comps.length) :
    Free (g.needsOf comps) done i ↔ g.Ready (done.map (compAt comps)) (compAt comps i) := by
  rw [Free, length_needsOf, needsOf_getD hi, Ready, and_iff_right hi,
    and_iff_right (compAt_mem hcomps hi)]
  have hplaced {j : Nat} (hj : j < comps.length) :
      j ∈ done ↔ compAt comps j ∈ done.map (compAt comps) := by
    refine ⟨List.mem_map_of_mem, fun hmem => ?_⟩
    obtain ⟨d, hd, heq⟩ := List.mem_map.mp hmem
    exact compAt_inj hg hcomps (hdone d hd) hj heq ▸ hd
  refine and_congr (not_congr (hplaced hi)) ⟨fun hsub fn hfn c hc => ?_, fun hready j hj => ?_⟩
  · obtain ⟨hlt, hmem⟩ := (placeOf_eq_iff hg hcomps (hg.callees fn hc)).mp rfl
    by_cases hself : placeOf comps c = i
    · exact .inl (hself ▸ hmem)
    · have hin := hsub ((mem_neededBy hg hcomps).mpr ⟨hself, hlt, fn, hfn, c, hc, hmem⟩)
      exact .inr (List.mem_flatten.mpr ⟨_, List.mem_map_of_mem hin, hmem⟩)
  · obtain ⟨hne, hlt, fn, hfn, c, hc, hmem⟩ := (mem_neededBy hg hcomps).mp hj
    rcases hready fn hfn c hc with hin | hin
    · exact absurd (compAt_inj hg hcomps hlt hi (eq_of_mem_components hg
        (compAt_mem hcomps hlt) (compAt_mem hcomps hi) hmem hin)) hne
    · obtain ⟨placed, hplacedIn, hin⟩ := List.mem_flatten.mp hin
      obtain ⟨d, hd, rfl⟩ := List.mem_map.mp hplacedIn
      exact compAt_inj hg hcomps (hdone d hd) hlt (eq_of_mem_components hg
        (compAt_mem hcomps (hdone d hd)) (compAt_mem hcomps hlt) hin hmem) ▸ hd

/-- From a queue on, the components are placed as they should be. -/
theorem placeAll_greedy {fuel : Nat} {q : Queue} (h : q.Holds (g.needsOf comps) done)
    (hfuel : left (List.range comps.length) done ≤ fuel) :
    g.Greedy (done.map (compAt comps)) ((placeAll (g.needsOf comps)
      (fun i => (compAt comps i).headD 0) fuel q).map (compAt comps)) := by
  have hbound : ∀ d ∈ done, d < comps.length := fun d hd => length_needsOf (g := g) ▸ h.bound d hd
  induction fuel generalizing done q with
  | zero =>
      refine .done fun c hc => ?_
      obtain ⟨i, hi, rfl⟩ := exists_compAt hcomps hc
      have hsub := left_eq_zero.mp (Nat.le_zero.mp hfuel)
      exact List.mem_map_of_mem (hsub (List.mem_range.mpr hi))
  | succ fuel ih =>
      rw [placeAll]
      split
      · next hnone =>
        -- The queue has run dry, so no component is ready.
        have hnil : q.ready = [] := by
          by_contra hne
          obtain ⟨i, hi, hmin⟩ := Finset.exists_min_image q.ready.toFinset
            (fun i => (compAt comps i).headD 0) (List.toFinset_nonempty_iff q.ready |>.mpr hne)
          refine List.find?_eq_none.mp hnone i (List.mem_toFinset.mp hi) (List.all_eq_true.mpr ?_)
          exact fun j hj => decide_eq_true (hmin j (List.mem_toFinset.mpr hj))
        refine .done fun c hc => ?_
        by_contra hnot
        obtain ⟨d, hready⟩ := exists_ready hg hc hnot
        obtain ⟨i, hi, rfl⟩ := exists_compAt hcomps hready.1
        have hmem := (h.ready i).mpr ((free_iff hg hcomps hbound hi).mpr hready)
        rw [hnil] at hmem
        cases hmem
      · next i hfind =>
        have hmem := List.mem_of_find?_eq_some hfind
        have hfirst := List.find?_some hfind
        rw [List.all_eq_true] at hfirst
        have hi : Free (g.needsOf comps) done i :=
          (h.ready i).mp hmem
        have hlt : i < comps.length := length_needsOf (g := g) ▸ hi.1
        have hplace := h.place nodup_needsOf (List.perm_cons_erase hmem).symm
        have hless : left (List.range comps.length) (done ++ [i]) ≤ fuel := by
          rw [left_snoc List.nodup_range hi.2.1, if_pos (List.mem_range.mpr hlt)]
          omega
        refine .place ((free_iff hg hcomps hbound hlt).mp hi) (fun d hready => ?_) ?_
        · obtain ⟨j, hj, rfl⟩ := exists_compAt hcomps hready.1
          have hin := (h.ready j).mpr ((free_iff hg hcomps hbound hj).mpr hready)
          exact of_decide_eq_true (hfirst j hin)
        · have hrest := ih hplace hless fun d hd => length_needsOf (g := g) ▸ hplace.bound d hd
          rw [List.map_append] at hrest
          exact hrest

/-- Whatever order the components are given in, they are placed as they should be. -/
theorem condense_greedy : g.Greedy [] (g.condense comps) :=
  placeAll_greedy hg hcomps holds_start
    ((List.length_filter_le _ _).trans (Nat.le_of_eq List.length_range))

end

end Condense

theorem orderedComponents_greedy (hg : g.Sound) : g.Greedy [] g.orderedComponents :=
  condense_greedy hg (.refl _)

/-- It does not matter in which order the components are found. -/
theorem condense_perm (hg : g.Sound) {comps : List (List Nat)} (hcomps : comps.Perm g.components) :
    g.condense comps = g.orderedComponents :=
  (condense_greedy hg hcomps).unique hg (orderedComponents_greedy hg)

theorem ordered_orderedComponents (hg : g.Sound) : g.Ordered [] g.orderedComponents :=
  (orderedComponents_greedy hg).ordered (List.nil_subset _)

theorem orderedComponents_perm (hg : g.Sound) : g.orderedComponents.Perm g.components := by
  have hgreedy := orderedComponents_greedy hg
  refine (List.perm_ext_iff_of_nodup hgreedy.nodup (nodup_components hg)).mpr fun c => ?_
  rw [hgreedy.mem_iff]
  exact and_iff_left List.not_mem_nil

/-- The order lists each defined function once. -/
theorem order_perm (hg : g.Sound) : g.analyze.order.Perm g.nodes :=
  (orderedComponents_perm hg).flatten.trans (flatten_components_perm hg)

theorem mem_order (hg : g.Sound) {fn : Nat} : fn ∈ g.analyze.order ↔ fn ∈ g.nodes :=
  (order_perm hg).mem_iff

theorem nodup_order (hg : g.Sound) : g.analyze.order.Nodup :=
  (order_perm hg).nodup_iff.mpr hg.nodup

end WasmShader.CallGraph
