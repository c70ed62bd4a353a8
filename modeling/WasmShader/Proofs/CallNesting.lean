import WasmShader.Proofs.Instruments
import WasmShader.Proofs.LegalModule

/-!
# Nesting of calls

Validation accepts the modules in which every call statement, at whatever depth it stands in the
body of a function (`Within`), is of a function further to the front (`Module.Ordered`). The calls
of such a module form no cycle.

What this means for runs is said of guarded ones (`Guarded.call`): they pass every chain of calls
that is about to grow to a guard, which may do anything, such as stop the run. In a module that
passes validation the chains are paths of the call graph, and shorter than the number of functions.
So a guard that does nothing on such chains does nothing at all (`calls_nest_boundedly`).
-/

namespace WasmShader

namespace Shader

/-! ## Statements inside statements -/

/-- A statement stands in a list of statements, at some depth. -/
inductive Within (s : Stmt) : List Stmt → Prop
  | here {body : List Stmt} (h : s ∈ body) : Within s body
  | inner {body part : List Stmt} {t : Stmt} (ht : t ∈ body) (hpart : part ∈ t.parts)
      (h : Within s part) : Within s body

theorem Within.mono {s : Stmt} {body body' : List Stmt} (h : Within s body) (hsub : body ⊆ body') :
    Within s body' := by
  cases h with
  | here h => exact .here (hsub h)
  | inner ht hpart h => exact .inner (hsub ht) hpart h

theorem Within.of_mem {s t : Stmt} {body : List Stmt} (h : Within s [t]) (ht : t ∈ body) :
    Within s body := h.mono (by simpa using ht)

theorem stmtsCalls_eq (ss : List Stmt) : stmtsCalls ss = ss.flatMap Stmt.calls := by
  induction ss with
  | nil => rw [stmtsCalls, List.flatMap_nil]
  | cons s ss ih => rw [stmtsCalls, List.flatMap_cons, ih]

theorem casesCalls_eq (cs : List Case) : casesCalls cs = (cs.map Case.body).flatMap stmtsCalls := by
  induction cs with
  | nil => rw [casesCalls, List.map_nil, List.flatMap_nil]
  | cons c cs ih =>
      obtain ⟨values, body⟩ := c
      rw [casesCalls, Case.calls, List.map_cons, List.flatMap_cons, ih]
      rfl

/-- The calls of a statement: the statement itself, or the calls of what it has. -/
theorem mem_calls {s : Stmt} {c : CallSite} :
    c ∈ s.calls ↔ (∃ name args results, s = .call name args results
      ∧ c = ⟨name, args.length, results.length⟩) ∨ ∃ part ∈ s.parts, c ∈ stmtsCalls part := by
  cases s with
  | call name args results => simp [Stmt.calls, Stmt.parts]
  | switch selector cases fallback =>
      simp [Stmt.calls, Stmt.parts, casesCalls_eq, or_and_right, exists_or]
  | _ => simp [Stmt.calls, Stmt.parts]

theorem mem_stmtsCalls_of_within {body : List Stmt} {name : String} {args : List Expr}
    {results : List String} (h : Within (.call name args results) body) :
    ⟨name, args.length, results.length⟩ ∈ stmtsCalls body := by
  induction h with
  | here h =>
      rw [stmtsCalls_eq]
      exact List.mem_flatMap.mpr ⟨_, h, mem_calls.mpr (.inl ⟨_, _, _, rfl, rfl⟩)⟩
  | inner ht hpart _ ih =>
      rw [stmtsCalls_eq]
      exact List.mem_flatMap.mpr ⟨_, ht, mem_calls.mpr (.inr ⟨_, hpart, ih⟩)⟩

theorem sizeOf_part {body part : List Stmt} {t : Stmt} (ht : t ∈ body) (hpart : part ∈ t.parts) :
    sizeOf part < sizeOf body := by
  have hmem := List.sizeOf_lt_of_mem ht
  suffices sizeOf part < sizeOf t by omega
  cases t with
  | ifElse cond body alternative =>
      rcases List.mem_pair.mp hpart with rfl | rfl
      · simp
        omega
      · simp
  | block label body | loop label body =>
      obtain rfl := List.mem_singleton.mp hpart
      simp
  | switch selector cases fallback =>
      rcases List.mem_append.mp hpart with hcase | hfallback
      · obtain ⟨⟨values, body⟩, hc, rfl⟩ := List.mem_map.mp hcase
        have := List.sizeOf_lt_of_mem hc
        simp [Case.body] at this ⊢
        omega
      · obtain rfl := List.mem_singleton.mp hfallback
        simp
  | _ => cases hpart

theorem within_of_mem_stmtsCalls {body : List Stmt} {c : CallSite} (h : c ∈ stmtsCalls body) :
    ∃ name args results, Within (.call name args results) body
      ∧ c = ⟨name, args.length, results.length⟩ := by
  rw [stmtsCalls_eq] at h
  obtain ⟨s, hs, hc⟩ := List.mem_flatMap.mp h
  rcases mem_calls.mp hc with ⟨name, args, results, rfl, rfl⟩ | ⟨part, hpart, hc⟩
  · exact ⟨name, args, results, .here hs, rfl⟩
  · have hsize := sizeOf_part hs hpart
    obtain ⟨name, args, results, hwithin, rfl⟩ := within_of_mem_stmtsCalls hc
    exact ⟨name, args, results, .inner hs hpart hwithin, rfl⟩
termination_by sizeOf body

namespace Module

variable {m : Module}

/-! ## What validation accepts -/

/-- No two functions have one name, every call statement is of a function further to the front with
as many parameters and results, and entry points run functions without either. -/
structure Ordered (m : Module) : Prop where
  names : (m.functions.map (·.name)).Nodup
  calls : ∀ (i : Nat) (f : Function), m.functions[i]? = some f → ∀ name args results,
    Within (.call name args results) f.body →
    ∃ (j : Nat) (g : Function), j < i ∧ m.functions[j]? = some g ∧ g.name = name
      ∧ args.length = g.params.length ∧ results.length = g.results.length
  entryPoints : ∀ e ∈ m.entryPoints, ∃ f ∈ m.functions,
    f.name = e.function ∧ f.params = [] ∧ f.results = []

theorem Ordered.legal (h : m.Ordered) : m.Legal where
  names := h.names
  entryPoints := h.entryPoints
  calls := by
    intro pre f post heq c hc
    obtain ⟨name, args, results, hwithin, rfl⟩ := within_of_mem_stmtsCalls hc
    have hf : m.functions[pre.length]? = some f := by
      rw [heq, List.getElem?_append_right (Nat.le_refl _), Nat.sub_self]
      rfl
    obtain ⟨j, g, hlt, hg, hname, hargs, hresults⟩ := h.calls _ f hf _ _ _ hwithin
    rw [heq, List.getElem?_append_left hlt] at hg
    exact ⟨g, List.mem_of_getElem? hg, hname, hargs, hresults⟩

theorem name_of_function? {name : String} {f : Function} (h : m.function? name = some f) :
    f ∈ m.functions ∧ f.name = name :=
  ⟨List.mem_reverse.mp (List.mem_of_find?_eq_some h), by simpa using List.find?_some h⟩

theorem name_of_place? {name : String} {j : Nat} (h : m.place? name = some j) :
    ∃ g : Function, m.functions[j]? = some g ∧ g.name = name := by
  obtain ⟨⟨g, j'⟩, hfind, rfl⟩ := Option.map_eq_some_iff.mp h
  have hmem := List.mem_reverse.mp (List.mem_of_find?_eq_some hfind)
  exact ⟨g, List.mk_mem_zipIdx_iff_getElem?.mp hmem, by simpa using List.find?_some hfind⟩

/-- A call that validation has nothing to say against. -/
theorem of_callFault?_eq_none {i : Nat} {f : Function} {c : CallSite}
    (h : m.callFault? i f c = none) :
    ∃ (j : Nat) (g : Function), j < i ∧ m.functions[j]? = some g ∧ g.name = c.func
      ∧ c.args = g.params.length ∧ c.results = g.results.length := by
  unfold callFault? at h
  split at h
  · cases h
  · next j hplace =>
    obtain ⟨g, hg, hname⟩ := name_of_place? hplace
    rw [hg] at h
    dsimp only at h
    split at h
    · cases h
    · next hlt =>
      split at h
      · cases h
      · next harity =>
        obtain ⟨hargs, hresults⟩ : c.args = g.params.length ∧ c.results = g.results.length := by
          simpa using harity
        exact ⟨j, g, Nat.lt_of_not_le hlt, hg, hname, hargs, hresults⟩

theorem of_entryFault?_eq_none {e : EntryPoint} (h : m.entryFault? e = none) :
    ∃ f ∈ m.functions, f.name = e.function ∧ f.params = [] ∧ f.results = [] := by
  unfold entryFault? at h
  split at h
  · cases h
  · next f hf =>
    obtain ⟨hmem, hname⟩ := name_of_function? hf
    split at h
    · next hempty => exact ⟨f, hmem, hname, by simpa using hempty⟩
    · cases h

theorem ordered_of_validate (h : m.validate = .ok ()) : m.Ordered := by
  have hnames := nodup_of_validate h
  unfold validate at h
  rw [namesDistinct_of_nodup hnames] at h
  simp only [Bool.not_true, Bool.false_eq_true, if_false] at h
  split at h
  · cases h
  · next hfaults =>
    obtain ⟨hcalls, hentries⟩ := List.append_eq_nil_iff.mp hfaults
    refine ⟨hnames, fun i f hf name args results hwithin => ?_, fun e he => ?_⟩
    · have hfault := List.flatMap_eq_nil_iff.mp hcalls (f, i)
        (List.mk_mem_zipIdx_iff_getElem?.mpr hf)
      exact of_callFault?_eq_none
        (List.filterMap_eq_nil_iff.mp hfault _ (mem_stmtsCalls_of_within hwithin))
    · exact of_entryFault?_eq_none (List.filterMap_eq_nil_iff.mp hentries e he)

/-! ## The call graph -/

/-- The call graph has the callee among the functions that the caller calls. -/
def Edge (m : Module) (caller callee : String) : Prop :=
  ∃ callees, (caller, callees) ∈ m.callGraph ∧ callee ∈ callees

theorem edge_iff_calls {caller callee : String} : m.Edge caller callee ↔ m.Calls caller callee := by
  constructor
  · rintro ⟨callees, hmem, hcallee⟩
    obtain ⟨f, hf, heq⟩ := List.mem_map.mp hmem
    cases heq
    obtain ⟨c, hc, rfl⟩ := List.mem_map.mp hcallee
    exact ⟨f, hf, rfl, c, hc, rfl⟩
  · rintro ⟨f, hf, rfl, c, hc, rfl⟩
    exact ⟨_, List.mem_map.mpr ⟨f, hf, rfl⟩, List.mem_map.mpr ⟨c, hc, rfl⟩⟩

/-- A function, the function that called it, and so on. -/
def IsCallPath (m : Module) (names : List String) : Prop :=
  names.IsChain fun callee caller => m.Edge caller callee

/-- A path of calls that starts at a function has less calls than there are functions. -/
theorem Ordered.length_path (h : m.Ordered) {chain : List String} {start : String}
    (hstart : start ∈ m.functions.map (·.name)) (hpath : m.IsCallPath (chain ++ [start])) :
    chain.length < m.functions.length := by
  let place (name : String) : Nat := (m.functions.map (·.name)).idxOf name
  have hascending : ((chain ++ [start]).map place).Pairwise (· < ·) := by
    rw [← List.isChain_iff_pairwise, List.isChain_map]
    exact hpath.imp fun _ _ hedge => h.legal.idxOf_lt (edge_iff_calls.mp hedge)
  have hplace : place start < m.functions.length := by
    rw [← List.length_map]
    exact List.idxOf_lt_length_of_mem hstart
  have hbelow : ∀ i ∈ (chain ++ [start]).map place, i ∈ List.range m.functions.length := by
    intro i hi
    rw [List.map_append, List.map_singleton] at hascending hi
    rw [List.mem_range]
    rcases List.mem_append.mp hi with hi | hi
    · exact ((List.pairwise_append.mp hascending).2.2 i hi _ List.mem_cons_self).trans hplace
    · rw [List.mem_singleton.mp hi]
      exact hplace
  have hcount := (List.subperm_of_subset (hascending.imp Nat.ne_of_lt) hbelow).length_le
  rw [List.length_map, List.length_append, List.length_singleton, List.length_range] at hcount
  omega

end Module

end Shader

namespace Execution

open Shader

namespace Guarded

/-! ## Guarded runs -/

/-- Computations that know the chain of calls that they are made in: the functions that have been
called and not been left, the innermost first. -/
abbrev Chained := ReaderT (List String) Exec

/-- A function that is about to run is first shown to the guard, in front of the chain. -/
def guarding (guard : List String → Exec Unit) : Instrument Chained where
  lift x := fun _ => x
  reached := pure ()
  dispatch env id := fun _ => Exec.dispatch env id
  called name x := fun chain => do
    guard (name :: chain)
    x (name :: chain)

/-- Runs a function on arguments, with a guard. -/
def call (guard : List String → Exec Unit) (env : Env) (chain : List String) (fuel : Nat)
    (f : Shader.Function) (args : List Datum) : Exec (List Datum) :=
  (guarding guard).call env fuel f args chain

/-! ## Chains are paths -/

section Chains

variable {guard : List String → Exec Unit} {env : Env} {chain : List String} {start : String}

/-- Every call in the statement goes on along a path of calls. -/
def Extends (m : Module) (start : String) (chain : List String) (st : Stmt) : Prop :=
  ∀ name args results, Within (.call name args results) [st] →
    m.IsCallPath (name :: (chain ++ [start]))

theorem Extends.part {m : Module} {st : Stmt} (h : Extends m start chain st) {part : List Stmt}
    (hpart : part ∈ st.parts) : ∀ s ∈ part, Extends m start chain s :=
  fun _ hs name args results hwithin => h name args results
    (.inner List.mem_cons_self hpart (hwithin.of_mem hs))

/-- The calls of a function go on from it. -/
theorem extends_body {m : Module} {f : Shader.Function} (hf : f ∈ m.functions)
    {callers : List String} (hpath : m.IsCallPath (f.name :: callers)) {name : String}
    {args : List Expr} {results : List String} (h : Within (.call name args results) f.body) :
    m.IsCallPath (name :: f.name :: callers) :=
  .cons_cons (Module.edge_iff_calls.mpr ⟨f, hf, rfl, _, mem_stmtsCalls_of_within h, rfl⟩) hpath

/-- A guard that does nothing on paths of calls changes no step. -/
theorem preserved_guarding (hguard : ∀ chain, env.exe.module.IsCallPath (chain ++ [start]) →
      guard chain = pure ()) :
    Preserved (guarding guard) bare env env 0 (Extends env.exe.module start)
      (fun chain f => ∀ s ∈ f.body, Extends env.exe.module start chain s)
      (fun chain {_} x y => x chain = y) :=
  Composes.preserved
    { exe := rfl
      part := fun hst hpart => hst.part hpart
      body := id
      pure := fun _ => rfl
      bind := by
        intro chain _ _ x _ _ _ hx hk
        subst hx
        exact congrArg (x chain >>= ·) (funext hk)
      outOfFuel := fun _ hy => (hy rfl).symm
      reached := rfl
      checkCancelled := rfl
      dispatch := fun _ _ => rfl
      called := by
        intro chain name args results f hst hf
        obtain ⟨hmem, rfl⟩ := Module.name_of_function? hf
        have hpath := hst _ _ _ (.here List.mem_cons_self)
        refine ⟨f.name :: chain, fun s hs _ _ _ hwithin =>
          extends_body hmem hpath (hwithin.of_mem hs), fun x y hxy => ?_⟩
        change (guard (f.name :: chain) >>= fun _ => x (f.name :: chain)) = y
        rw [hguard _ hpath, pure_bind, hxy] }
    fun _ => rfl

/-- Runs are as without the guard, if it does nothing on paths of calls. -/
theorem call_eq (hguard : ∀ chain, env.exe.module.IsCallPath (chain ++ [start]) →
      guard chain = pure ()) {f : Shader.Function}
    (hf : ∀ s ∈ f.body, Extends env.exe.module start chain s) (fuel : Nat) (args : List Datum) :
    call guard env chain fuel f args = Exec.call env fuel f args := by
  rw [← (bare_run env fuel).2.2.2]
  exact ((preserved_guarding hguard).run fuel).call f args hf

end Chains

end Guarded

/-- Validation accepts the modules with ordered calls. Then the call graph has no cycle, and in
every run of every function the chains of nested calls are paths of the call graph that are shorter
than the number of functions: a guard that does nothing on these changes nothing. -/
theorem validate_bounds_nesting (m : Module) :
    (m.validate = .ok () ↔ m.Ordered)
      ∧ (m.validate = .ok () →
        (∀ name, ¬Relation.TransGen m.Edge name name)
          ∧ ∀ (env : Env) (guard : List String → Exec Unit), env.exe.module = m →
            ∀ f ∈ m.functions,
              (∀ chain, m.IsCallPath (chain ++ [f.name]) → chain.length < m.functions.length →
                guard chain = pure ()) →
              ∀ fuel args, Guarded.call guard env [] fuel f args = Exec.call env fuel f args) := by
  refine ⟨⟨Module.ordered_of_validate, fun h => h.legal.validate⟩, fun h => ?_⟩
  have hordered := Module.ordered_of_validate h
  constructor
  · intro name hcycle
    exact hordered.legal.acyclic name
      (hcycle.lift id fun _ _ => Module.edge_iff_calls.mp)
  · rintro env guard rfl f hf hguard fuel args
    have hname : f.name ∈ env.exe.module.functions.map (·.name) := List.mem_map.mpr ⟨f, hf, rfl⟩
    have hpaths : ∀ chain, env.exe.module.IsCallPath (chain ++ [f.name]) → guard chain = pure () :=
      fun chain hpath => hguard chain hpath (hordered.length_path hname hpath)
    exact Guarded.call_eq hpaths (fun s hs _ _ _ hwithin =>
      Guarded.extends_body hf (.singleton _) (hwithin.of_mem hs)) fuel args

/-- A function that adds one to its argument. -/
def successor : Shader.Function where
  name := "leaf"
  params := [⟨"a0", .u32⟩]
  results := [.u32]
  body := [.ret [.binary .add (.var "a0") (.u32 1)]]

/-- A function that calls another from inside a loop. -/
def caller : Shader.Function where
  name := "main"
  locals := [⟨"r", .u32⟩]
  body := [.loop "l" [.call "leaf" [.u32 2] ["r"], .leave "l"]]

def twoFunctions : Env where
  exe := { (default : Compile.Executable) with
    module := { functions := [successor, caller], entryPoints := [⟨"entry", "main", ⟨64, 1, 1⟩⟩] } }

theorem ordered_twoFunctions : twoFunctions.exe.module.Ordered where
  names := by decide
  calls := by
    intro i f hf name args results hwithin
    have hcall := mem_stmtsCalls_of_within hwithin
    match i with
    | 0 =>
        cases hf
        simp [successor, stmtsCalls, Stmt.calls] at hcall
    | 1 =>
        cases hf
        obtain ⟨rfl, hargs, hresults⟩ : name = "leaf" ∧ args.length = 1 ∧ results.length = 1 := by
          simpa [caller, stmtsCalls, Stmt.calls] using hcall
        exact ⟨0, successor, Nat.zero_lt_one, rfl, rfl, hargs, hresults⟩
    | i + 2 => cases hf
  entryPoints := by
    intro e he
    cases List.mem_singleton.mp he
    exact ⟨caller, List.mem_cons_of_mem _ List.mem_cons_self, rfl, rfl, rfl⟩

theorem validate_bounds_nesting_twoFunctions :
    twoFunctions.exe.module.validate = .ok ()
      ∧ ∀ fuel args, Guarded.call (fun chain => if chain.length < 2 then pure () else throw .crash)
          twoFunctions [] fuel caller args = Exec.call twoFunctions fuel caller args := by
  obtain ⟨hiff, hbound⟩ := validate_bounds_nesting twoFunctions.exe.module
  have hvalid := hiff.mpr ordered_twoFunctions
  refine ⟨hvalid, (hbound hvalid).2 twoFunctions _ rfl caller (by simp [twoFunctions]) ?_⟩
  intro chain _ hlen
  exact if_pos hlen

-- the guard is asked before the one call that the run makes
example : (Guarded.call (fun chain => throw (.fault (String.join chain))) twoFunctions [] 9 caller []
    default).1 = .error (.fault "leaf") := rfl

end Execution

end WasmShader
