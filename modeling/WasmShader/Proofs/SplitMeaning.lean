import WasmShader.Proofs.MachineForm
import WasmShader.Proofs.TreeRun

/-!
# Splitting keeps the meaning

The machine of a checked function does what the body of the function does as a tree: it asks the
same of others, in the same order and with the same arguments, and comes to the same end with
the same locals and globals, or like the body to none. The blocks that the walk makes do so
because they hold the pieces of the tree (`BodyCode`); dropping and renumbering blocks afterwards
changes no run.

A run that does not end is compared by what it asks: an oracle may be made to write down what it
is asked and to stop the run at some question.
-/

namespace WasmShader

open Execution (Datum FitsAll)

namespace Structured

variable {σ : Type} {p : Program} {l : Layout} {oracle : Oracle σ}

/-! ## The blocks that the walk makes -/

section Body

variable {f : Function} {body : List Node} {blocks : Nat → Option BlockRest}
  {le : Option (Ending (Store σ) (List Datum)) → Option (Ending (Store σ) (List Datum)) → Prop}
  {R : Nat → Going σ}

/-- From block zero on the blocks do what the body does. -/
theorem bodyCode_runs (hp : p.Formed) (horacle : oracle.Sound p l)
    (hR : Compares p l oracle blocks le R) (hbody : Split.BodyCode p f blocks body) {st : Store σ}
    (hst : st.Fits p l f) (i : Nat) : le (R i 0 [] st) (evalBody p l oracle f body st) := by
  obtain ⟨start, o, hstart, hcode, ho⟩ := hbody
  let κ (r : Ending (Store σ) Flow) := some (bodyEnd f.type.results.length r)
  have hκ : Accepts p l f oracle le (R i) [⟨.func, f.type.results⟩] [] f.type.results o κ := by
    refine ⟨fun t ht stack st hfits _ => ?_, fun depth lab hlab below carried st hfits _ => ?_,
      fun below results st hfits _ => ?_, fun e st => hR.refl _⟩
    · obtain rfl := ho t ht
      rw [resume_ret]
      exact hR.refl _
    · cases depth with
      | succ depth => cases hlab
      | zero =>
          cases hlab
          change le _ (some (.ok (top f.type.results.length (below ++ carried)), st))
          rw [top_append _ _ hfits.length_eq.symm]
          exact hR.refl _
    · change le _ (some (.ok (top f.type.results.length (below ++ results)), st))
      rw [top_append _ _ hfits.length_eq.symm]
      exact hR.refl _
  have hwithin : LabelsWithin [⟨.func, f.type.results⟩] [] := by
    intro lab hlab index height htarget
    rw [List.mem_singleton.mp hlab] at htarget
    cases htarget
  have hruns := seqCode_runs hp horacle hR body hcode i [] [] st κ .nil hwithin .nil hst hκ
  rw [evalBody, Option.map_eq_bind]
  exact hR.trans (hR.enter hstart i [] st) hruns

/-- A machine whose blocks hold the pieces of the body does what the body does. -/
theorem runMachine_eq (hp : p.Formed) (horacle : oracle.Sound p l) {m : Machine}
    (hbody : Split.BodyCode p f m.block? body) {st : Store σ} (hst : st.Fits p l f) :
    runMachine p l oracle m st = evalBody p l oracle f body st := by
  refine Below.antisymm (fun r hr => ?_)
    (bodyCode_runs hp horacle compares_from hbody hst 0)
  obtain ⟨n, hn⟩ := untilDone_eq_some_iff.mp hr
  exact bodyCode_runs hp horacle compares_within hbody hst n r hn

end Body

/-! ## Dropping blocks -/

section Prune

variable {ρ ρ' : Going σ} {number : Nat → Nat}

theorem bind_onward {α : Type} (x : Eval σ α) {k k' : α → Eval σ Exit}
    (h : ∀ a st, (k a st).bind (onward oracle ρ') = (k' a st).bind (onward oracle ρ))
    (st : Store σ) :
    ((x >>= k) st).bind (onward oracle ρ') = ((x >>= k') st).bind (onward oracle ρ) := by
  rw [bind_apply, bind_apply, Option.bind_assoc, Option.bind_assoc]
  congr 1
  funext left
  obtain ⟨r, st'⟩ := left
  cases r with
  | error e => rfl
  | ok a => exact h a st'

/-- Going on behind a terminator by other numbers of its targets. -/
theorem exitBy_renumber {t : Terminator}
    (hρ : ∀ k ∈ t.successors, ∀ stack st, ρ' (number k) stack st = ρ k stack st)
    (stack : List Datum) (st : Store σ) :
    (exitBy stack (t.renumber number) st).bind (onward oracle ρ')
      = (exitBy stack t st).bind (onward oracle ρ) := by
  have hedge {e : Edge} (he : e ∈ t.edges) (stack : List Datum) (st : Store σ) :
      onward oracle ρ' (.ok (.ofEdge (Terminator.renumber.edge number e) stack), st)
        = onward oracle ρ (.ok (.ofEdge e stack), st) := hρ _ (mem_successors_of_edge he) _ _
  have hanswered {next : Nat} (hnext : next ∈ t.successors) (rest : List Datum) (st : Store σ) :
      answered ρ' (number next) rest st = answered ρ next rest st := by
    funext asked
    obtain ⟨answer, shared⟩ := asked
    cases answer with
    | ok results => exact hρ next hnext _ _
    | error e => rfl
  have hlast {next : Nat} : next ∈ [] ++ [next] :=
    List.mem_append_right _ (List.mem_singleton.mpr rfl)
  cases t with
  | goto e => exact hedge (List.mem_singleton.mpr rfl) stack st
  | branch taken notTaken =>
      refine bind_onward _ (fun popped st => ?_) st
      obtain ⟨rest, c⟩ := popped
      dsimp only
      by_cases hc : c.truth = true
      · rw [if_pos hc, if_pos hc]
        exact hedge List.mem_cons_self rest st
      · rw [if_neg hc, if_neg hc]
        exact hedge (List.mem_cons_of_mem _ List.mem_cons_self) rest st
  | switch cases fallback =>
      refine bind_onward _ (fun popped st => ?_) st
      obtain ⟨rest, c⟩ := popped
      have hmem : cases.getD c.x.toNat fallback ∈ cases ++ [fallback] := by
        rw [List.getD_eq_getElem?_getD]
        cases hget : cases[c.x.toNat]? with
        | none => exact List.mem_append_right _ (List.mem_singleton.mpr rfl)
        | some e => exact List.mem_append_left _ (List.mem_of_getElem? hget)
      dsimp only
      rw [List.getD_map]
      exact hedge hmem rest st
  | call | host =>
      refine bind_onward _ (fun popped st => ?_) st
      obtain ⟨rest, operands⟩ := popped
      exact congrArg (Option.bind _) (hanswered hlast rest st)
  | ret results => rfl
  | trap code => rfl

open Split

variable {f : Function} {bs : List Block}

/-- A number that no block has gets a number that no block has. -/
theorem getElem?_survivors_of_none (hindex : ∀ k (b : Block), bs[k]? = some b → b.index = k) {i : Nat}
    (hi : bs[i]? = none) : (survivors bs.toArray)[newNumber bs i]? = none := by
  have hnot : i ∉ (live bs).map (·.index) := by
    intro hmem
    obtain ⟨b, hb, rfl⟩ := List.mem_map.mp hmem
    obtain ⟨k, hk⟩ := List.mem_iff_getElem?.mp (List.mem_filter.mp hb).1
    rw [hindex k b hk, hk] at hi
    cases hi
  have hnumber : newNumber bs i = (live bs).length := by
    rw [newNumber, List.idxOf_eq_length hnot, List.length_map]
  rw [survivors_eq, List.getElem?_map, hnumber, List.getElem?_eq_none (Nat.le_refl _)]
  rfl

theorem runWithin_of_none {m : Machine} {k : Nat} (hk : m.blocks[k]? = none) (n : Nat)
    (stack : List Datum) (st : Store σ) :
    runWithin p l oracle m (n + 1) k stack st = some (.error .stuck, st) := by
  rw [runWithin, within_succ_eq, runStep, runBlock, hk]
  rfl

/-- Dropping the blocks that control cannot reach changes no run. -/
theorem runWithin_prune (hindex : ∀ k (b : Block), bs[k]? = some b → b.index = k) (n : Nat)
    {i : Nat} (hi : i ∈ reachable bs.toArray) (stack : List Datum) (st : Store σ) :
    runWithin p l oracle ⟨f, survivors bs.toArray⟩ n (newNumber bs i) stack st
      = runWithin p l oracle ⟨f, bs⟩ n i stack st := by
  induction n generalizing i stack st with
  | zero => rfl
  | succ n ih =>
      cases hb : bs[i]? with
      | none =>
          have hnone := getElem?_survivors_of_none hindex hb
          rw [runWithin_of_none (m := ⟨f, bs⟩) hb, runWithin_of_none hnone]
      | some b =>
          have hrest : Machine.block? ⟨f, bs⟩ i = some ⟨b.body, b.term⟩ := by
            rw [Machine.block?, hb]
            rfl
          have hrest' : Machine.block? ⟨f, survivors bs.toArray⟩ (newNumber bs i)
              = some ⟨b.body, b.term.renumber (newNumber bs)⟩ := by
            rw [Machine.block?, getElem?_prune hindex hb hi]
            rfl
          have hsuccessors (k : Nat) (hk : k ∈ b.term.successors) :
              k ∈ reachable bs.toArray := by
            refine (reachable_closed bs).2 i hi ?_
            rw [successorsAt_eq hb]
            exact hk
          rw [runWithin_succ hrest, runWithin_succ hrest', resume, resume, Option.bind_assoc,
            Option.bind_assoc]
          congr 1
          funext left
          obtain ⟨r, st'⟩ := left
          cases r with
          | error e => rfl
          | ok flow =>
              cases flow with
              | branch depth stack' => rfl
              | ret stack' => rfl
              | next stack' =>
                  exact exitBy_renumber (fun k hk => ih (hsuccessors k hk)) stack' st'

theorem runMachine_prune (hindex : ∀ k (b : Block), bs[k]? = some b → b.index = k) {b : Block}
    (hb : bs[0]? = some b) :
    runMachine p l oracle ⟨f, survivors bs.toArray⟩ = runMachine p l oracle ⟨f, bs⟩ := by
  have hzero := (reachable_closed bs).1
  funext st
  refine congrArg eventual (funext fun n => ?_)
  have hrun : runWithin p l oracle ⟨f, survivors bs.toArray⟩ n (newNumber bs 0) [] st
      = runWithin p l oracle ⟨f, bs⟩ n 0 [] st := runWithin_prune hindex n hzero [] st
  rwa [newNumber_zero hindex hb hzero] at hrun

end Prune

/-! ## What is asked on the way -/

/-- What an oracle is asked, and the globals there. -/
structure Question where
  request : Request
  args : List Datum
  globals : List Datum

/-- The oracle writes down what it is asked, and stops the run at question `n`. -/
def Oracle.watched (oracle : Oracle σ) (n : Nat) : Oracle (σ × List Question) :=
  fun r args shared =>
    let asked := shared.host.2 ++ [⟨r, args, shared.globals⟩]
    if asked.length = n then
      some (.error (.trap .unreachable), { shared with host := (shared.host.1, asked) })
    else
      (oracle r args ⟨shared.globals, shared.host.1⟩).map fun (answer, shared') =>
        (answer, ⟨shared'.globals, (shared'.host, asked)⟩)

/-- The state before anything has been asked. -/
def Store.watched (st : Store σ) : Store (σ × List Question) :=
  ⟨st.locals, ⟨st.shared.globals, (st.shared.host, [])⟩⟩

/-- What has been asked at the end of an evaluation, or at question `n` if it asks as much. An
evaluation that neither ends nor asks as much has no such point. -/
def askedWithin {α : Type} (n : Nat) (oracle : Oracle σ)
    (eval : Oracle (σ × List Question) → Eval (σ × List Question) α) (st : Store σ) :
    Option (List Question) :=
  (eval (oracle.watched n) st.watched).map fun r => r.2.shared.host.2

theorem Oracle.Sound.watched (h : oracle.Sound p l) (n : Nat) : (oracle.watched n).Sound p l := by
  intro r sig args shared hsig hargs hglobals answer shared' hanswer
  unfold Oracle.watched at hanswer
  dsimp only at hanswer
  split at hanswer
  · cases hanswer
    exact ⟨rfl, hglobals⟩
  · obtain ⟨⟨answer', shared''⟩, hasked, heq⟩ := Option.map_eq_some_iff.mp hanswer
    have hfits := h r sig args ⟨shared.globals, shared.host.1⟩ hsig hargs hglobals _ _ hasked
    cases heq
    cases answer' with
    | ok results => exact hfits
    | error e => exact hfits

/-- An oracle that answers everything with zeros. -/
def Oracle.zeros (p : Program) (l : Layout) : Oracle σ := fun r _ shared =>
  match requestSignature? p r with
  | none => some (.error (.trap .unreachable), shared)
  | some sig => some (.ok (sig.results.map fun t => .zero (Shader.Ty.carrier l t)), shared)

theorem Oracle.sound_zeros (p : Program) (l : Layout) : (Oracle.zeros p l : Oracle σ).Sound p l := by
  intro r sig args shared hsig _ hglobals answer shared' hanswer
  rw [Oracle.zeros, hsig] at hanswer
  cases hanswer
  exact ⟨FitsAll.zeros l sig.results, hglobals⟩

end Structured

open Split Structured in
/-- The machine of a checked function does what its body does: on all oracles, locals and globals
it comes to the same end, if any, and on the way it asks the same. -/
theorem Machine.split_means {p : Program} {g : CallGraph} {f : Function} {hosts : HostTable}
    {source : Binary.Module} (hread : Program.ofModule source = .ok p)
    (hg : CallGraph.build p = .ok g) (hf : f ∈ p.funcs) (hcheck : p.check f = .ok ())
    (hhosts : hosts.Sound p) :
    ∃ body m hosts', f.body = .ok body ∧ Machine.split p g.analyze hosts f = .ok (m, hosts')
      ∧ ∀ {σ : Type} (l : Layout) (oracle : Oracle σ) (st : Store σ), oracle.Sound p l →
        st.Fits p l f →
        runMachine p l oracle m st = evalBody p l oracle f body st
        ∧ ∀ n, askedWithin n oracle (fun oracle => runMachine p l oracle m) st
          = askedWithin n oracle (fun oracle => evalBody p l oracle f body) st := by
  have hp := Program.formed_of_ofModule hread
  obtain ⟨body, hbody, htyped⟩ := Program.typedSeq_of_check_function (hp.body f hf) hcheck
  obtain ⟨hknown, hlocals⟩ := hp.funcKnown f hf
  have hwalk : Walkable ⟨p, g.analyze, f⟩ :=
    ⟨hp, hknown, hlocals, fun fn h => Compile.isImport_of_directSafe hp hg h, hf⟩
  have hkept : CallsKept p (fun _ => True) (Body.instrs body) := fun _ _ _ _ _ _ => trivial
  obtain ⟨s, hsplit, -, -, -, hfirst, hcode⟩ :=
    Machine.split_walk hwalk hhosts hbody htyped hkept
  refine ⟨body, _, _, hbody, hsplit, ?_⟩
  -- What the walk makes does what the body does, and so does what is left of it.
  have hindex (k : Nat) (b : Block) (hb : (s.machine f).blocks[k]? = some b) : b.index = k := by
    rw [State.machine, List.getElem?_mapIdx] at hb
    obtain ⟨d, -, rfl⟩ := Option.map_eq_some_iff.mp hb
    rfl
  obtain ⟨first, hzero, -⟩ := Option.map_eq_some_iff.mp hfirst
  have hblocks : BodyCode p f (s.machine f).block? body := by
    rw [show (s.machine f).block? = s.block? from funext (block?_machine s f)]
    exact hcode
  have hrun {τ : Type} (l : Layout) (oracle : Oracle τ) (st : Store τ) (horacle : oracle.Sound p l)
      (hst : st.Fits p l f) :
      runMachine p l oracle ⟨f, survivors (s.machine f).blocks.toArray⟩ st
        = evalBody p l oracle f body st := by
    rw [runMachine_prune hindex hzero]
    exact runMachine_eq hp horacle hblocks hst
  intro σ l oracle st horacle hst
  refine ⟨hrun l oracle st horacle hst, fun n => ?_⟩
  rw [askedWithin, askedWithin, hrun l _ _ (horacle.watched n) ⟨hst.locals, hst.globals⟩]

open Structured in
/-- The theorem at a function with a loop, a table branch and recursion, which goes round the loop
as long as it is answered with zeros. -/
theorem Machine.split_means_wandering :
    HostTable.Sound wanderingProgram { layout := {} }
      ∧ (Oracle.zeros wanderingProgram {} : Oracle Unit).Sound wanderingProgram {}
      ∧ ∃ body m hosts', wanderingFunction.body = .ok body
        ∧ Machine.split wanderingProgram wanderingGraph.analyze { layout := {} } wanderingFunction
          = .ok (m, hosts')
        ∧ ∀ shared : Shared Unit, shared.globals = [] →
          Store.Fits wanderingProgram {} wanderingFunction
            ⟨initialLocals {} wanderingFunction [.zero .u32], shared⟩
          ∧ runMachine wanderingProgram {} (.zeros wanderingProgram {}) m
              ⟨initialLocals {} wanderingFunction [.zero .u32], shared⟩
            = evalBody wanderingProgram {} (.zeros wanderingProgram {}) wanderingFunction body
              ⟨initialLocals {} wanderingFunction [.zero .u32], shared⟩ := by
  obtain ⟨body, m, hosts', hbody, hsplit, hmeans⟩ := Machine.split_means read_wandering
    build_wandering mem_wandering check_wandering (HostTable.Sound.empty _ {})
  refine ⟨.empty _ _, Oracle.sound_zeros _ _, body, m, hosts', hbody, hsplit,
    fun shared hshared => ?_⟩
  have hp := Program.formed_of_ofModule read_wandering
  have hparams : wanderingFunction.type.params = [.i32] := by decide +kernel
  have hglobals : wanderingProgram.globals = [] := by
    rw [← List.isEmpty_iff]
    decide +kernel
  have hargs : FitsAll {} wanderingFunction.type.params [.zero .u32] := by
    rw [hparams]
    exact FitsAll.zeros {} [.i32]
  have hst : Store.Fits wanderingProgram {} wanderingFunction
      ⟨initialLocals {} wanderingFunction [.zero .u32], shared⟩ := by
    refine ⟨initialLocals_fits (hp.funcLocals _ mem_wandering) hargs, ?_⟩
    rw [Program.GlobalsFit, hglobals, hshared]
    exact .nil
  exact ⟨hst, (hmeans {} _ _ (Oracle.sound_zeros _ _) hst).1⟩

end WasmShader
