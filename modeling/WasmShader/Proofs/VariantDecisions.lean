import WasmShader.Proofs.MachineForm
import WasmShader.Proofs.RecursionGroups

/-!
# How functions run

What calls lead to decides how a function can run. One that leads to no recursion and to no question
to the host runs as an ordinary call; all others need the machine, and so does everything that
recursion leads to. A call is an ordinary one if the callee can run so, and then the callee comes
first in the order of functions. Otherwise caller and callee both need the machine, so a block that
ends with a call leads to the first block of a machine that is there.
-/

namespace WasmShader.CallGraph

variable {p : Program} {g : CallGraph}

/-- The function does something itself that only the host can do. -/
def AsksHost (p : Program) (fn : Nat) : Prop := ∃ f ∈ p.funcs, f.index = fn ∧ p.hostOps f = true

/-- Recursion leads to the function, or the function leads to recursion or to a function that
asks the host. -/
def MeetsMachine (p : Program) (g : CallGraph) (fn : Nat) : Prop :=
  (∃ m, g.Recursive m ∧ g.Calls m fn)
    ∨ ∃ m, g.Calls fn m ∧ (g.Recursive m ∨ ∃ f ∈ p.funcs, f.index = m ∧ p.hostOps f = true)

/-! ## Functions -/

/-- What keeps a function from running as an ordinary call is recursion or a question to the
host. -/
theorem mem_blocked_iff (hp : Numbered p) (hg : build p = .ok g) {fn : Nat} :
    fn ∈ g.blocked ↔ g.Recursive fn ∨ AsksHost p fn := by
  have hyields : fn ∈ g.analyze.yields ↔ AsksHost p fn := by
    rw [AsksHost, ← program_of_build hg]
    constructor
    · intro hm
      obtain ⟨f, hf, rfl⟩ := List.mem_map.mp hm
      obtain ⟨hf, hops⟩ := List.mem_filter.mp hf
      exact ⟨f, hf, rfl, hops⟩
    · rintro ⟨f, hf, rfl, hops⟩
      exact List.mem_map.mpr ⟨f, List.mem_filter.mpr ⟨hf, hops⟩, rfl⟩
  rw [blocked, List.mem_append, hyields, ← inGroup_iff_mem,
    inGroup_iff_recursive (sound_of_numbered hp hg)]

theorem needsMachine_iff (hp : Numbered p) (hg : build p = .ok g) {fn : Nat} :
    g.analyze.needsMachine fn = true ↔ MeetsMachine p g fn := by
  have hsound := sound_of_numbered hp hg
  have hneeds : g.analyze.needsMachine fn = true
      ↔ fn ∈ g.transitiveCallers g.blocked
        ∨ fn ∈ g.transitiveCallees (g.analyze.groups.flatMap (·.members)) := by
    rw [Analysis.needsMachine, List.contains_iff_mem, ← List.mem_append]
    exact ⟨mem_of_mem_distinct, mem_distinct_of_mem⟩
  rw [hneeds, mem_transitiveCallers hsound, mem_transitiveCallees hsound]
  constructor
  · rintro (⟨m, hm, hcalls⟩ | ⟨m, hm, hcalls⟩)
    · exact .inr ⟨m, hcalls, (mem_blocked_iff hp hg).mp hm⟩
    · exact .inl ⟨m, (inGroup_iff_recursive hsound).mp (inGroup_iff_mem.mpr hm), hcalls⟩
  · rintro (⟨m, hm, hcalls⟩ | ⟨m, hcalls, hm⟩)
    · exact .inr ⟨m, inGroup_iff_mem.mp ((inGroup_iff_recursive hsound).mpr hm), hcalls⟩
    · exact .inl ⟨m, (mem_blocked_iff hp hg).mpr hm, hcalls⟩

/-- Everything that a direct-safe function leads to is direct-safe. -/
theorem directSafe_of_calls (hg : g.Sound) {fn m : Nat} (h : g.analyze.directSafe fn = true)
    (hcalls : g.Calls fn m) : g.analyze.directSafe m = true := by
  induction hcalls with
  | refl => exact h
  | tail _ hstep ih => exact (Bool.and_eq_true_iff.mp (canCallDirect_of_mem_callees hg ih hstep)).1

/-- A defined function is direct-safe if it leads to nothing that keeps functions from running as
ordinary calls. -/
theorem directSafe_iff (hp : Numbered p) (hg : build p = .ok g) {fn : Nat} (hfn : fn ∈ g.nodes) :
    g.analyze.directSafe fn = true ↔ ∀ m, g.Calls fn m → ¬ g.Recursive m ∧ ¬ AsksHost p m := by
  have hsound := sound_of_numbered hp hg
  constructor
  · intro hsafe m hcalls
    have hnot := not_blocked_of_directSafe (directSafe_of_calls hsound hsafe hcalls)
    rw [mem_blocked_iff hp hg, not_or] at hnot
    exact hnot
  · intro hnone
    refine (directSafe_or_calls hsound hfn).resolve_right ?_
    rintro ⟨b, hb, hcalls⟩
    obtain ⟨hrec, hasks⟩ := hnone b hcalls
    exact ((mem_blocked_iff hp hg).mp hb).elim hrec hasks

/-! ## Calls -/

section Edges

variable {caller callee : Nat}

/-- A direct-safe callee comes before its caller, since the two do not call each other. -/
theorem rank_lt_of_directSafe (hg : g.Sound) (hc : callee ∈ g.callees caller)
    (h : g.analyze.directSafe callee = true) :
    g.analyze.rank callee < g.analyze.rank caller := by
  refine rank_callee_lt hg hc ?_
  rintro ⟨-, hback⟩
  have hrec : g.Recursive callee := .tail' hback hc
  refine not_blocked_of_directSafe h (List.mem_append_left _ ?_)
  exact inGroup_iff_mem.mp ((inGroup_iff_recursive hg).mpr hrec)

theorem canCallDirect_eq (hg : g.Sound) (hc : callee ∈ g.callees caller) :
    g.analyze.canCallDirect caller callee = g.analyze.directSafe callee := by
  cases h : g.analyze.directSafe callee with
  | false => rw [Analysis.canCallDirect, h, Bool.false_and]
  | true =>
      rw [Analysis.canCallDirect, h, Bool.true_and]
      exact decide_eq_true (rank_lt_of_directSafe hg hc h)

/-- If the callee is not direct-safe, both sides of a call need the machine. -/
theorem needsMachine_of_not_directSafe (hg : g.Sound) (hc : callee ∈ g.callees caller)
    (h : g.analyze.directSafe callee = false) :
    g.analyze.needsMachine caller = true ∧ g.analyze.needsMachine callee = true := by
  obtain ⟨b, hb, hcalls⟩ := (directSafe_or_calls hg (hg.callees caller hc)).resolve_left
    (by rw [h]; exact Bool.false_ne_true)
  exact ⟨needsMachine_of_calls hg hb (.head hc hcalls), needsMachine_of_calls hg hb hcalls⟩

end Edges

/-- The function of a number has a machine, and the machine a first block. -/
def HasFirstBlock (p : Program) (g : CallGraph) (fn : Nat) : Prop :=
  fn ∈ g.analyze.machineSet ∧ ∃ f ∈ p.funcs, f.index = fn ∧ (p.check f = .ok () →
    ∀ hosts : HostTable, hosts.Sound p → ∃ m hosts',
      Machine.split p g.analyze hosts f = .ok (m, hosts') ∧ m.func = f ∧ ∃ b, m.blocks[0]? = some b)

theorem hasFirstBlock (hp : p.Formed) (hg : build p = .ok g) {fn : Nat} (hfn : fn ∈ g.nodes)
    (h : g.analyze.needsMachine fn = true) : HasFirstBlock p g fn := by
  obtain ⟨f, hf, rfl⟩ := (mem_nodes_iff_defined hg).mp hfn
  refine ⟨List.mem_filter.mpr ⟨(mem_order (sound_of_build hp hg)).mpr hfn, h⟩, f, hf, rfl, ?_⟩
  intro hcheck hosts hhosts
  obtain ⟨body, m, hosts', -, hsplit, hfunc, hsound⟩ :=
    Machine.split_checked hp hg hf hcheck hhosts
  obtain ⟨b, hb, -⟩ := exists_of_entryTypes? hsound.first
  exact ⟨m, hosts', hsplit, hfunc, b, hb⟩

/-- A block of a checked function that ends with a call leads to a function that the caller cannot
call directly, and that has a machine. -/
theorem hasFirstBlock_of_term (hp : p.Formed) (hg : build p = .ok g) {f : Function}
    (hf : f ∈ p.funcs) (hcheck : p.check f = .ok ()) {hosts hosts' : HostTable}
    (hhosts : hosts.Sound p) {m : Machine} (hsplit : Machine.split p g.analyze hosts f = .ok (m, hosts'))
    {b : Block} (hb : b ∈ m.blocks) {callee next : Nat} {args results : List ValueType}
    (hterm : b.term = .call callee args results next) :
    callee ∈ g.callees f.index ∧ g.analyze.directSafe callee = false ∧ HasFirstBlock p g callee := by
  have hsound := sound_of_build hp hg
  obtain ⟨body, m', hosts'', -, hsplit', hfunc, hm⟩ := Machine.split_checked hp hg hf hcheck hhosts
  rw [hsplit] at hsplit'
  cases hsplit'
  obtain ⟨hcallee, hdirect⟩ := (hm.leads b hb).call callee args results next hterm
  have hunsafe : g.analyze.directSafe callee = false := by
    rw [← canCallDirect_eq hsound hcallee, ← hfunc]
    exact hdirect
  exact ⟨hcallee, hunsafe, hasFirstBlock hp hg (hsound.callees _ hcallee)
    (needsMachine_of_not_directSafe hsound hcallee hunsafe).2⟩

/-! ## All decisions -/

/-- How functions and calls of a program are run. -/
structure Decided (p : Program) (g : CallGraph) : Prop where
  machine : ∀ fn, g.analyze.needsMachine fn = true ↔ MeetsMachine p g fn
  direct : ∀ f ∈ p.funcs, g.analyze.directSafe f.index = true
    ↔ ∀ m, g.Calls f.index m → ¬ g.Recursive m ∧ ¬ AsksHost p m
  calls : ∀ caller, ∀ callee ∈ g.callees caller,
    g.analyze.canCallDirect caller callee = g.analyze.directSafe callee
    ∧ (g.analyze.directSafe callee = true → g.analyze.rank callee < g.analyze.rank caller)
    ∧ (g.analyze.directSafe callee = false →
      g.analyze.needsMachine caller = true ∧ g.analyze.needsMachine callee = true)
  /-- Wherever a block ends with a call there is a block to go to. -/
  targets : p.Formed → ∀ f ∈ p.funcs, p.check f = .ok () → ∀ hosts : HostTable, hosts.Sound p →
    ∀ m hosts', Machine.split p g.analyze hosts f = .ok (m, hosts') →
      ∀ b ∈ m.blocks, ∀ callee args results next, b.term = .call callee args results next →
        callee ∈ g.callees f.index ∧ g.analyze.directSafe callee = false
          ∧ HasFirstBlock p g callee

/-- The analysis decides by what calls lead to, and leaves no call without a target. -/
theorem variants_decided (hp : Numbered p) (hg : build p = .ok g) : Decided p g := by
  have hsound := sound_of_numbered hp hg
  refine ⟨fun fn => needsMachine_iff hp hg, fun f hf => directSafe_iff hp hg ?_,
    fun caller callee hc => ⟨canCallDirect_eq hsound hc, rank_lt_of_directSafe hsound hc,
      needsMachine_of_not_directSafe hsound hc⟩, ?_⟩
  · exact (mem_nodes_iff_defined hg).mpr ⟨f, hf, rfl⟩
  · intro hformed f hf hcheck hosts hhosts m hosts' hsplit b hb callee args results next hterm
    exact hasFirstBlock_of_term hformed hg hf hcheck hhosts hsplit hb hterm

/-- The theorem at functions of which three take part in recursion. -/
theorem variants_decided_circling :
    Numbered circlingProgram ∧ build circlingProgram = .ok circlingGraph
      ∧ Decided circlingProgram circlingGraph :=
  ⟨numbered_circling, build_circling, variants_decided numbered_circling build_circling⟩

end WasmShader.CallGraph
