import WasmShader.Proofs.DirectSafety

/-!
# Recursion groups and the order of functions

A function is in a recursion group if calls lead from it back to itself, and two functions are in
one group if they call each other. The order of functions has those of a component next to each
other, and what a function calls before it, unless the two call each other. The order and the
numbers of the groups do not depend on the order in which components are found.
-/

namespace WasmShader.CallGraph

variable {p : Program} {g : CallGraph}

/-! ## Components of functions -/

theorem mem_nodes_of_calls (hg : g.Sound) {fn other : Nat} (hfn : fn ∈ g.nodes)
    (h : g.Calls fn other) : other ∈ g.nodes := by
  cases h with
  | refl => exact hfn
  | tail _ hstep => exact hg.callees _ hstep

theorem mem_component_iff (hg : g.Sound) {fn other : Nat} (hfn : fn ∈ g.nodes) :
    other ∈ g.component fn ↔ g.Calls fn other ∧ g.Calls other fn := by
  rw [mem_component hg]
  exact and_iff_right_of_imp fun h => mem_nodes_of_calls hg hfn h.1

theorem mem_nodes_iff_defined (hg : build p = .ok g) {fn : Nat} :
    fn ∈ g.nodes ↔ ∃ f ∈ p.funcs, f.index = fn := by
  rw [nodes, program_of_build hg, List.mem_map]

theorem mem_orderedComponents (hg : g.Sound) {c : List Nat} :
    c ∈ g.orderedComponents ↔ c ∈ g.components := (orderedComponents_perm hg).mem_iff

/-! ## Recursion -/

/-- The function calls itself, directly or through others. -/
def Recursive (g : CallGraph) (fn : Nat) : Prop := Relation.TransGen (Leads g.callees) fn fn

/-- The function is a member of a recursion group. -/
def InGroup (g : CallGraph) (fn : Nat) : Prop := ∃ group ∈ g.analyze.groups, fn ∈ group.members

theorem inGroup_iff_mem {fn : Nat} :
    g.InGroup fn ↔ fn ∈ g.analyze.groups.flatMap (·.members) := List.mem_flatMap.symm

/-- The members of the groups are the components that take part in recursion. -/
theorem groups_members :
    g.analyze.groups.map (·.members) = g.orderedComponents.filter g.isRecursive := by
  change ((g.orderedComponents.filter g.isRecursive).mapIdx fun id members =>
    RecursionGroup.mk id members).map (·.members) = _
  refine List.ext_getElem? fun i => ?_
  rw [List.getElem?_map, List.getElem?_mapIdx, Option.map_map]
  exact Option.map_id_apply

/-- The groups are the components that take part in recursion. -/
theorem inGroup_iff_component {fn : Nat} :
    g.InGroup fn ↔ ∃ c ∈ g.orderedComponents, g.isRecursive c = true ∧ fn ∈ c := by
  constructor
  · rintro ⟨group, hgroup, hfn⟩
    obtain ⟨hmem, hrec⟩ := List.mem_filter.mp (groups_members ▸ List.mem_map_of_mem hgroup)
    exact ⟨_, hmem, hrec, hfn⟩
  · rintro ⟨c, hc, hrec, hfn⟩
    exact inGroup_iff_mem.mpr (mem_recursive hc hrec hfn)

/-- A component takes part in recursion if it has more than one function or one that calls
itself. -/
theorem isRecursive_iff {c : List Nat} (hne : c ≠ []) :
    g.isRecursive c = true ↔ 1 < c.length ∨ ∃ fn ∈ c, fn ∈ g.callees fn := by
  rcases c with _ | ⟨fn, _ | ⟨other, rest⟩⟩
  · exact absurd rfl hne
  · rw [isRecursive, isSelfRecursive, List.contains_iff_mem]
    simp
  · simp [isRecursive]

/-- A component takes part in recursion if its functions call themselves. -/
theorem isRecursive_component (hg : g.Sound) {fn : Nat} (hfn : fn ∈ g.nodes) :
    g.isRecursive (g.component fn) = true ↔ g.Recursive fn := by
  have hself := self_mem_component hg hfn
  constructor
  · intro hrec
    -- A component with another member leads there and back.
    by_cases hother : ∃ other ∈ g.component fn, other ≠ fn
    · obtain ⟨other, hmem, hne⟩ := hother
      obtain ⟨-, hthere, hback⟩ := (mem_component hg).mp hmem
      exact ((Relation.reflTransGen_iff_eq_or_transGen.mp hthere).resolve_left hne).trans_left hback
    · have hall : ∀ other ∈ g.component fn, other = fn := by
        intro other hmem
        by_contra hne
        exact hother ⟨other, hmem, hne⟩
      rcases (isRecursive_iff (List.ne_nil_of_mem hself)).mp hrec with hlong | ⟨x, hx, hcalls⟩
      · have hnodup := (ascending_component hg fn).imp Nat.ne_of_lt
        rw [List.eq_replicate_of_mem hall, ← List.Nodup, List.nodup_replicate] at hnodup
        omega
      · rw [hall x hx] at hcalls
        exact .single hcalls
  · intro hrec
    obtain ⟨callee, hcallee, hback⟩ := Relation.TransGen.head'_iff.mp hrec
    refine isRecursive_of_callee hself ?_ hcallee
    exact (mem_component_iff hg hfn).mpr ⟨.single hcallee, hback⟩

/-- A function that calls itself is a node. -/
theorem mem_nodes_of_recursive (hg : g.Sound) {fn : Nat} (h : g.Recursive fn) : fn ∈ g.nodes := by
  obtain ⟨callee, hcallee, -⟩ := Relation.TransGen.head'_iff.mp h
  exact hg.mem_nodes_of_mem_callees hcallee

/-- The members of recursion groups are the functions that call themselves, directly or through
others. -/
theorem inGroup_iff_recursive (hg : g.Sound) {fn : Nat} : g.InGroup fn ↔ g.Recursive fn := by
  rw [inGroup_iff_component]
  constructor
  · rintro ⟨c, hc, hrec, hfn⟩
    have hmem := (mem_orderedComponents hg).mp hc
    obtain rfl := component_of_mem hg hmem hfn
    exact (isRecursive_component hg ((mem_component hg).mp hfn).1).mp hrec
  · intro hrec
    have hfn := mem_nodes_of_recursive hg hrec
    exact ⟨g.component fn, (mem_orderedComponents hg).mpr (component_mem hg hfn),
      (isRecursive_component hg hfn).mpr hrec, self_mem_component hg hfn⟩

/-! ## The group of a function -/

section GroupOf

variable {fn other : Nat} {group group' : RecursionGroup}

/-- The group of a function has its component for members. -/
theorem members_of_groupOf? (hg : g.Sound) (h : g.analyze.groupOf? fn = some group) :
    group ∈ g.analyze.groups ∧ fn ∈ g.nodes ∧ group.members = g.component fn := by
  have hgroup := List.mem_of_find?_eq_some h
  have hcontains : group.members.contains fn = true :=
    @List.find?_some _ (fun group : RecursionGroup => group.members.contains fn) _ _ h
  have hfn := List.contains_iff_mem.mp hcontains
  have hmem := (List.mem_filter.mp (groups_members ▸ List.mem_map_of_mem hgroup)).1
  have heq := component_of_mem hg ((mem_orderedComponents hg).mp hmem) hfn
  exact ⟨hgroup, ((mem_component hg).mp (heq ▸ hfn)).1, heq⟩

theorem nodup_members (hg : g.Sound) : (g.analyze.groups.map (·.members)).Nodup := by
  rw [groups_members]
  exact (orderedComponents_greedy hg).nodup.filter _

theorem group_eq_of_members (hg : g.Sound) (hgroup : group ∈ g.analyze.groups)
    (hgroup' : group' ∈ g.analyze.groups) (h : group.members = group'.members) : group = group' :=
  List.inj_on_of_nodup_map (nodup_members hg) hgroup hgroup' h

/-- A function has a group if and only if it calls itself. -/
theorem groupOf?_isSome (hg : g.Sound) :
    (g.analyze.groupOf? fn).isSome = true ↔ g.Recursive fn := by
  rw [← inGroup_iff_recursive hg, Analysis.groupOf?, List.find?_isSome, InGroup]
  simp only [List.contains_iff_mem]

/-- Two functions have one group if and only if they call each other. -/
theorem groupOf?_eq_iff (hg : g.Sound) (h : g.analyze.groupOf? fn = some group)
    (h' : g.analyze.groupOf? other = some group') :
    group = group' ↔ g.Calls fn other ∧ g.Calls other fn := by
  obtain ⟨hgroup, hfn, hmembers⟩ := members_of_groupOf? hg h
  obtain ⟨hgroup', hother, hmembers'⟩ := members_of_groupOf? hg h'
  rw [← mem_component_iff hg hfn]
  constructor
  · rintro rfl
    rw [← hmembers, hmembers']
    exact self_mem_component hg hother
  · intro hmem
    refine group_eq_of_members hg hgroup hgroup' ?_
    rw [hmembers, hmembers', component_congr hg hmem]

end GroupOf

/-- The components are the classes of functions that call each other, each in ascending order and
each function once; the groups are those with more than one member or with a function that calls
itself. So a function has a group if and only if calls lead from it back to itself, and two
functions that have one have the same if and only if they call each other. -/
theorem groups_are_cycles (hp : Numbered p) (hg : build p = .ok g) :
    g.components.flatten.Nodup
      ∧ (∀ fn, fn ∈ g.components.flatten ↔ ∃ f ∈ p.funcs, f.index = fn)
      ∧ (∀ c ∈ g.components, c ≠ [] ∧ c.Pairwise (· < ·)
        ∧ ∀ fn ∈ c, ∀ other, other ∈ c ↔ g.Calls fn other ∧ g.Calls other fn)
      ∧ (g.analyze.groups.map (·.members)).Nodup
      ∧ (∀ members, (∃ group ∈ g.analyze.groups, group.members = members)
        ↔ members ∈ g.components ∧ (1 < members.length ∨ ∃ fn ∈ members, fn ∈ g.callees fn))
      ∧ (∀ fn, (g.analyze.groupOf? fn).isSome = true ↔ Relation.TransGen (Leads g.callees) fn fn)
      ∧ ∀ fn other group group', g.analyze.groupOf? fn = some group →
        g.analyze.groupOf? other = some group' →
        (group = group' ↔ g.Calls fn other ∧ g.Calls other fn) := by
  have hsound := sound_of_numbered hp hg
  refine ⟨nodup_flatten_components hsound, fun fn => ?_, fun c hc => ?_, nodup_members hsound,
    fun members => ?_, fun fn => groupOf?_isSome hsound,
    fun fn other group group' h h' => groupOf?_eq_iff hsound h h'⟩
  · rw [(flatten_components_perm hsound).mem_iff, mem_nodes_iff_defined hg]
  · obtain ⟨first, -, rfl⟩ := (mem_components hsound).mp hc
    refine ⟨nonempty_of_mem_components hsound hc, ascending_component hsound first,
      fun fn hfn other => ?_⟩
    rw [← component_congr hsound hfn]
    exact mem_component_iff hsound ((mem_component hsound).mp hfn).1
  · have hmem : (∃ group ∈ g.analyze.groups, group.members = members)
        ↔ members ∈ g.orderedComponents ∧ g.isRecursive members = true := by
      rw [← List.mem_map, groups_members, List.mem_filter]
    rw [hmem, mem_orderedComponents hsound]
    exact and_congr_right fun hc => isRecursive_iff (nonempty_of_mem_components hsound hc)

/-! Two functions that call each other, one that calls them and one that calls itself and the
first. -/

def circling : Binary.Module where
  types := [⟨[], []⟩]
  funcs := [0, 0, 0, 0]
  code := [⟨[], [0x10, 1, 0x0b]⟩, ⟨[], [0x10, 2, 0x0b]⟩, ⟨[], [0x10, 1, 0x0b]⟩,
    ⟨[], [0x10, 3, 0x10, 0, 0x0b]⟩]

def circlingProgram : Program := (Program.ofModule circling).toOption.getD default

def circlingGraph : CallGraph := (build circlingProgram).toOption.getD default

theorem built_circling :
    (Program.ofModule circling).isOk = true ∧ (build circlingProgram).isOk = true := by
  decide +kernel

theorem numbered_circling : Numbered circlingProgram := by
  have hread : Program.ofModule circling = .ok circlingProgram := eq_ok_getD built_circling.1 default
  exact (Program.formed_of_ofModule hread).funcIndex

theorem build_circling : build circlingProgram = .ok circlingGraph :=
  eq_ok_getD built_circling.2 default

/-- The theorem at functions of which three take part in recursion. -/
theorem groups_are_cycles_circling :
    Numbered circlingProgram ∧ build circlingProgram = .ok circlingGraph
      ∧ (circlingGraph.analyze.groupOf? 1).isSome = true := by
  obtain ⟨-, -, -, -, -, hgroup, -⟩ := groups_are_cycles numbered_circling build_circling
  have hthere : 2 ∈ circlingGraph.callees 1 := by decide +kernel
  have hback : 1 ∈ circlingGraph.callees 2 := by decide +kernel
  exact ⟨numbered_circling, build_circling, (hgroup 1).mpr (.tail (.single hthere) hback)⟩

/-! ## The order -/

/-- In a list without repetition, what stands in an earlier part has the lower place. -/
theorem pairwise_idxOf_flatten {comps : List (List Nat)} (h : comps.flatten.Nodup) :
    comps.Pairwise fun c c' =>
      ∀ x ∈ c, ∀ y ∈ c', comps.flatten.idxOf x < comps.flatten.idxOf y := by
  have hplaces : comps.flatten.Pairwise fun x y =>
      comps.flatten.idxOf x < comps.flatten.idxOf y := by
    rw [List.pairwise_iff_getElem]
    intro i j hi hj hlt
    rw [h.idxOf_getElem i hi, h.idxOf_getElem j hj]
    exact hlt
  exact (List.pairwise_flatten.mp hplaces).2

theorem rank_lt_iff (hg : g.Sound) {x y : Nat} (hx : x ∈ g.nodes) (hy : y ∈ g.nodes) :
    g.analyze.rank x < g.analyze.rank y ↔ g.analyze.order.idxOf x < g.analyze.order.idxOf y := by
  rw [rank_eq_idxOf ((mem_order hg).mpr hx), rank_eq_idxOf ((mem_order hg).mpr hy), Int.ofNat_lt]

/-- What a function calls comes before it, unless the two call each other. -/
theorem rank_callee_lt (hg : g.Sound) {fn c : Nat} (hc : c ∈ g.callees fn)
    (hnot : ¬ (g.Calls fn c ∧ g.Calls c fn)) : g.analyze.rank c < g.analyze.rank fn := by
  have hfn := hg.mem_nodes_of_mem_callees hc
  rw [rank_lt_iff hg (hg.callees fn hc) hfn]
  rcases idxOf_lt_or_together (ordered_orderedComponents hg) ((mem_order hg).mpr hfn) hc with
    hnil | hlt | ⟨comp, hcomp, hmem, hin⟩
  · cases hnil
  · exact hlt
  · obtain rfl := component_of_mem hg ((mem_orderedComponents hg).mp hcomp) hmem
    exact absurd ((mem_component_iff hg hfn).mp hin) hnot

/-- The functions of a component stand next to each other. -/
theorem component_infix (hg : g.Sound) {fn : Nat} (hfn : fn ∈ g.nodes) :
    g.component fn <:+: g.analyze.order := by
  obtain ⟨before, after, heq⟩ :=
    List.append_of_mem ((mem_orderedComponents hg).mpr (component_mem hg hfn))
  refine ⟨before.flatten, after.flatten, ?_⟩
  change _ = g.orderedComponents.flatten
  rw [heq, List.flatten_append, List.flatten_cons, List.append_assoc]

/-- The order of functions is the one that the calls determine, and so are the numbers of the
recursion groups. -/
structure Canonical (p : Program) (g : CallGraph) : Prop where
  /-- Each defined function is listed once. -/
  once : g.analyze.order.Nodup ∧ ∀ fn, fn ∈ g.analyze.order ↔ ∃ f ∈ p.funcs, f.index = fn
  /-- What a function calls comes before it, unless the two call each other. -/
  calleesFirst : ∀ fn, ∀ c ∈ g.callees fn, ¬ (g.Calls fn c ∧ g.Calls c fn) →
    g.analyze.rank c < g.analyze.rank fn
  /-- Functions that call each other stand together, in ascending order. -/
  together : ∀ fn ∈ g.analyze.order, ∃ members, members <:+: g.analyze.order
    ∧ members.Pairwise (· < ·) ∧ ∀ x, x ∈ members ↔ g.Calls fn x ∧ g.Calls x fn
  /-- The order goes component by component, and the component that is placed next is the one with
  the smallest function of those that are not placed but call nothing else that is not. -/
  next : g.analyze.order = g.orderedComponents.flatten
    ∧ g.orderedComponents.Perm g.components
    ∧ ∀ before c after, g.orderedComponents = before ++ c :: after →
      g.Ready before c ∧ ∀ d, g.Ready before d → ∃ x ∈ c, ∀ y ∈ d, x ≤ y
  /-- The order in which components are found makes no difference. -/
  found : ∀ comps, comps.Perm g.components → g.condense comps = g.orderedComponents
  /-- Groups have their places for numbers, and stand as their functions do in the order. -/
  groups : (∀ k (group : RecursionGroup), g.analyze.groups[k]? = some group → group.id = k)
    ∧ g.analyze.groups.Pairwise fun a b =>
      ∀ x ∈ a.members, ∀ y ∈ b.members, g.analyze.rank x < g.analyze.rank y

theorem headD_le (hg : g.Sound) {c : List Nat} (hc : c ∈ g.components) :
    c.headD 0 ∈ c ∧ ∀ y ∈ c, c.headD 0 ≤ y := by
  obtain ⟨fn, -, rfl⟩ := (mem_components hg).mp hc
  have hascending := ascending_component hg fn
  cases hcomp : g.component fn with
  | nil => exact absurd hcomp (nonempty_of_mem_components hg hc)
  | cons x xs =>
      rw [hcomp, List.pairwise_cons] at hascending
      refine ⟨List.mem_cons_self, fun y hy => ?_⟩
      rcases List.mem_cons.mp hy with rfl | hy
      · exact Nat.le_refl _
      · exact Nat.le_of_lt (hascending.1 y hy)

/-- Groups stand as their functions do in the order. -/
theorem pairwise_groups (hg : g.Sound) : g.analyze.groups.Pairwise fun a b =>
    ∀ x ∈ a.members, ∀ y ∈ b.members, g.analyze.rank x < g.analyze.rank y := by
  have hplaces := (pairwise_idxOf_flatten (nodup_order hg)).filter g.isRecursive
  rw [← groups_members, List.pairwise_map] at hplaces
  refine hplaces.imp_of_mem fun {a b} ha hb hlt x hx y hy => ?_
  have hnode {group : RecursionGroup} (hgroup : group ∈ g.analyze.groups) {z : Nat}
      (hz : z ∈ group.members) : z ∈ g.nodes :=
    mem_nodes_of_recursive hg ((inGroup_iff_recursive hg).mp ⟨group, hgroup, hz⟩)
  rw [rank_lt_iff hg (hnode ha hx) (hnode hb hy)]
  exact hlt x hx y hy

/-- The order lists each defined function once and callees first, and depends on nothing but the
graph. -/
theorem order_canonical (hp : Numbered p) (hg : build p = .ok g) : Canonical p g := by
  have hsound := sound_of_numbered hp hg
  have hgreedy := orderedComponents_greedy hsound
  refine
    { once := ⟨nodup_order hsound, fun fn => ?_⟩
      calleesFirst := fun fn c hc hnot => rank_callee_lt hsound hc hnot
      together := fun fn hfn => ?_
      next := ⟨rfl, orderedComponents_perm hsound, fun before c after heq => ?_⟩
      found := fun comps hcomps => condense_perm hsound hcomps
      groups := ⟨fun k group hk => ?_, pairwise_groups hsound⟩ }
  · rw [mem_order hsound, mem_nodes_iff_defined hg]
  · have hnode := (mem_order hsound).mp hfn
    exact ⟨g.component fn, component_infix hsound hnode, ascending_component hsound fn,
      fun x => mem_component_iff hsound hnode⟩
  · rw [heq] at hgreedy
    obtain ⟨hready, hfirst⟩ := hgreedy.next
    rw [List.nil_append] at hready hfirst
    refine ⟨hready, fun d hd => ⟨c.headD 0, (headD_le hsound hready.1).1, fun y hy => ?_⟩⟩
    exact Nat.le_trans (hfirst d hd) ((headD_le hsound hd.1).2 y hy)
  · change ((g.orderedComponents.filter g.isRecursive).mapIdx fun id members =>
      RecursionGroup.mk id members)[k]? = some group at hk
    rw [List.getElem?_mapIdx, Option.map_eq_some_iff] at hk
    obtain ⟨members, -, rfl⟩ := hk
    rfl

/-- The theorem at functions of which three take part in recursion. -/
theorem order_canonical_circling :
    Numbered circlingProgram ∧ build circlingProgram = .ok circlingGraph
      ∧ Canonical circlingProgram circlingGraph :=
  ⟨numbered_circling, build_circling, order_canonical numbered_circling build_circling⟩

example : circlingGraph.analyze.order = [1, 2, 0, 3] := by cbv

end WasmShader.CallGraph
