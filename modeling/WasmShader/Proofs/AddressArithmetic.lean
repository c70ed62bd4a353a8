import WasmShader.Proofs.Isolation

/-!
# Arithmetic of addresses

The code computes the places of words, and whether a push fits, with numbers of 32 bits that wrap
around. How many lanes there are and how large their stacks are is not bounded anywhere, so this
agrees with exact arithmetic within limits only, and `AddressArithmetic` says which: the distance
of two lanes' stacks is exact unless its sum wraps around, the addresses of a region are if the
regions of all lanes have 2³² words at most, and the check in front of a push is as long as its sum
is below 2³², which it always is for stacks of less than 2³¹ words. A push by the host adds exact
numbers.
-/

namespace WasmShader

open Emit

namespace Execution

/-! ## Addresses -/

/-- The code for the address of word `j` of a region, where local variables have the values
`vars`. -/
inductive AddressCode (vars : Vars) : Region → (j : Nat) → Shader.Expr → Prop
  | header (j : Nat) : AddressCode vars .stack j (offset (.var headerBase) j.toUInt32)
  | data {sp : Nat} (off : Nat) : vars.lookup spVar = some (.ofU32 sp.toUInt32) →
      AddressCode vars .stack (LaneStack.headerWords + sp + off) (dataAt off.toUInt32)
  | io (off k : Nat) : AddressCode vars .io (off + k) (baseWord ioBase off k)
  | globals (off k : Nat) : AddressCode vars .globals (off + k) (baseWord globalBase off k)

/-- The address in a buffer of word `j` of a lane's region, as the code computes it. -/
def wrappedAddress (x : Compile.Executable) (i : Nat) (r : Region) (j : Nat) : UInt32 :=
  i.toUInt32 * (regionSize x r).toUInt32 + j.toUInt32

/-- The state behind the code that finds the regions of the lane. -/
def State.found (x : Compile.Executable) (s : State) : State :=
  { s with privates :=
      [(globalBase, .ofU32 (s.lane.index.toUInt32 * x.globalWords)),
       (ioBase, .ofU32 (s.lane.index.toUInt32 * x.ioWords)),
       (dataBase, .ofU32 (s.lane.index.toUInt32 * (2 + x.stackWords) + 2)),
       (headerBase, .ofU32 (s.lane.index.toUInt32 * (2 + x.stackWords)))] }

/-- Behind the code that finds the regions, the code for word `j` of a region of the lane with
number `i` evaluates to its exact place in the buffer, where the regions of the lanes follow each
other. -/
def ExactAddress (x : Compile.Executable) (i : Nat) (r : Region) (j : Nat) : Prop :=
  ∀ (env : Env) (s : State) e, env.exe = x → s.lane.index = i →
    (∀ v ∈ Emit.privates, s.vars.lookup v.name = none) → AddressCode s.vars r j e →
      ∃ s' a, stmtMeaning env (callOnly setupName) { s with privates := unset }
          = some (.ok .next, s')
        ∧ eval x.layout s' e = .ok (.ofU32 a) ∧ a.toNat = i * regionSize x r + j

section Addresses

variable {x : Compile.Executable} {env : Env} {s : State} {r : Region} {i j : Nat}

theorem toNat_wrappedAddress :
    (wrappedAddress x i r j).toNat = (i * regionSize x r + j) % 2 ^ 32 := by
  simp [wrappedAddress, UInt32.toNat_add, UInt32.toNat_mul]

theorem stmtMeaning_setup (hx : Runnable x) (henv : env.exe = x) :
    stmtMeaning env (callOnly setupName) { s with privates := unset }
      = some (.ok .next, s.found x) := by
  rw [stmtMeaning, Exec.limit_eq_some_iff (Exec.growing_stmt env _)]
  exact ⟨7, outcome_setup hx henv 7 s⟩

/-- The code for an address adds up to the address modulo 2³². -/
theorem eval_addressCode {e : Shader.Expr} (he : AddressCode s.vars r j e)
    (hhidden : ∀ v ∈ Emit.privates, s.vars.lookup v.name = none) (l : Layout) :
    eval l (s.found x) e = .ok (.ofU32 (wrappedAddress x s.lane.index r j)) := by
  have hstack : (regionSize x .stack).toUInt32 = 2 + x.stackWords := by
    rw [regionSize, toUInt32_add]
    exact congrArg _ UInt32.ofNat_toNat
  have hio : (regionSize x .io).toUInt32 = x.ioWords := UInt32.ofNat_toNat
  have hglobals : (regionSize x .globals).toUInt32 = x.globalWords := UInt32.ofNat_toNat
  have hbase (name : String) {v : Datum} (hname : ⟨name, .u32⟩ ∈ Emit.privates)
      (hv : (s.found x).privates.lookup name = some v) :
      eval l (s.found x) (.var name) = .ok v :=
    State.lookup_of_privates (hhidden ⟨name, .u32⟩ hname) hv
  unfold wrappedAddress
  cases he with
  | header j =>
      rw [hstack]
      exact eval_offset (hbase headerBase (by decide) rfl) _
  | @data sp off hsp =>
      have hvar : eval l (s.found x) (.var spVar) = .ok (.ofU32 sp.toUInt32) :=
        State.lookup_of_vars hsp
      have hsum := eval_sum (hbase dataBase (by decide) rfl) hvar
      rw [hstack, toUInt32_add, toUInt32_add]
      refine (eval_offset hsum off.toUInt32).trans ?_
      rw [UInt32.add_assoc _ 2, UInt32.add_assoc]
      rfl
  | io off k =>
      rw [hio]
      exact eval_offset (hbase ioBase (by decide) rfl) _
  | globals off k =>
      rw [hglobals]
      exact eval_offset (hbase globalBase (by decide) rfl) _

/-- There is code for the address of every word. -/
theorem exists_addressCode (r : Region) (j : Nat) : ∃ e, AddressCode [] r j e := by
  cases r with
  | stack => exact ⟨_, .header j⟩
  | io => exact ⟨_, .io j 0⟩
  | globals => exact ⟨_, .globals j 0⟩

/-- An address is exact as long as there is a number of 32 bits for it. -/
theorem exactAddress_iff (hx : Runnable x) :
    ExactAddress x i r j ↔ i * regionSize x r + j < 2 ^ 32 := by
  constructor
  · intro h
    obtain ⟨e, he⟩ := exists_addressCode r j
    obtain ⟨s', a, -, -, ha⟩ :=
      h { exe := x } ⟨Lane.new x i, [], unset⟩ e rfl rfl (fun _ _ => rfl) he
    rw [← ha]
    exact a.toNat_lt
  · intro h env s e henv hindex hhidden he
    refine ⟨_, wrappedAddress x i r j, stmtMeaning_setup hx henv, ?_, ?_⟩
    · rw [← hindex]
      exact eval_addressCode he hhidden x.layout
    · rw [toNat_wrappedAddress, Nat.mod_eq_of_lt h]

end Addresses

/-! ## Pushes -/

/-- The check in front of a push of `n` words. -/
def pushCheck (n : Nat) (limit : UInt32) : Shader.Stmt :=
  .ifElse (.binary .gt (.binary .add (.var spVar) (.count n)) (.u32 limit))
    [.trap TrapCode.stackOverflow.code] []

/-- The check in front of a push of `n` words above `sp` stops with an overflow exactly if the
words do not fit. -/
def ExactCheck (limit : UInt32) (sp n : Nat) : Prop :=
  ∀ (env : Env) (s : State), s.vars.lookup spVar = some (.ofU32 sp.toUInt32) →
    stmtMeaning env (pushCheck n limit) s
      = if limit.toNat < sp + n then some (.error (.trap .stackOverflow), s.trapped .stackOverflow)
        else some (.ok .next, s)

section Pushes

variable {limit : UInt32} {env : Env} {s : State} {sp n : Nat}

theorem head?_finish (q : Push) (limit : UInt32) :
    (q.finish limit).head? = some (pushCheck q.size limit) := rfl

/-- What the check comes to: its sum is one of 32 bits. -/
theorem stmtMeaning_pushCheck (hsp : s.vars.lookup spVar = some (.ofU32 sp.toUInt32)) (n : Nat) :
    stmtMeaning env (pushCheck n limit) s
      = if limit.toNat < (sp + n) % 2 ^ 32 then
          some (.error (.trap .stackOverflow), s.trapped .stackOverflow)
        else some (.ok .next, s) := by
  have hsum : eval env.exe.layout s (.binary .add (.var spVar) (.count n))
      = .ok (.ofU32 (sp + n).toUInt32) := by
    rw [toUInt32_add]
    exact eval_sum (State.lookup_of_vars hsp) rfl
  have hcond : eval env.exe.layout s
      (.binary .gt (.binary .add (.var spVar) (.count n)) (.u32 limit))
      = .ok (.ofBool (decide (limit < (sp + n).toUInt32))) := by
    rw [eval, hsum]
    rfl
  have hiff : limit < (sp + n).toUInt32 ↔ limit.toNat < (sp + n) % 2 ^ 32 := by
    rw [UInt32.lt_iff_toNat_lt]
    rfl
  rw [pushCheck, stmtMeaning_ifElse hcond]
  by_cases hlt : limit.toNat < (sp + n) % 2 ^ 32
  · rw [if_pos hlt, decide_eq_true (hiff.mpr hlt), if_pos (by decide), meaning_singleton,
      stmtMeaning_trap]
  · rw [if_neg hlt, decide_eq_false (mt hiff.mp hlt), if_neg (by decide), meaning_nil]

/-- Within the stack, a check is exact as long as its sum does not wrap around. One that does
comes out below the limit again and lets the push through. -/
theorem exactCheck_iff (hsp : sp ≤ limit.toNat) (hn : n ≤ limit.toNat) :
    ExactCheck limit sp n ↔ sp + n < 2 ^ 32 := by
  have hlimit := limit.toNat_lt
  constructor
  · intro h
    by_contra hwraps
    have hvars : (([(spVar, .ofU32 sp.toUInt32)] : Vars)).lookup spVar
      = some (.ofU32 sp.toUInt32) := rfl
    have hexact := h default ⟨default, [(spVar, .ofU32 sp.toUInt32)], []⟩ hvars
    rw [stmtMeaning_pushCheck hvars, if_pos (by omega : limit.toNat < sp + n),
      if_neg (by omega)] at hexact
    cases hexact
  · intro h env s hs
    rw [stmtMeaning_pushCheck hs, Nat.mod_eq_of_lt h]

theorem exactChecks_iff :
    (∀ sp n, sp ≤ limit.toNat → n ≤ limit.toNat → ExactCheck limit sp n)
      ↔ 2 * limit.toNat < 2 ^ 32 := by
  constructor
  · intro h
    have hall := (exactCheck_iff (Nat.le_refl _) (Nat.le_refl _)).mp
      (h limit.toNat limit.toNat (Nat.le_refl _) (Nat.le_refl _))
    omega
  · intro h sp n hsp hn
    exact (exactCheck_iff hsp hn).mpr (by omega)

/-- The host's push adds exact numbers. -/
theorem isOk_push_iff (stack : LaneStack) (ws : List UInt32) :
    (stack.push ws).isOk = true ↔ stack.sp.toNat + ws.length ≤ stack.capacity := by
  unfold LaneStack.push
  dsimp only
  split
  · next hover =>
    constructor
    · intro h
      cases h
    · omega
  · next hfits =>
    exact iff_of_true rfl (by omega)

end Pushes

/-! ## Executors -/

/-- Up to where the 32-bit arithmetic of the code that an executor runs is exact. -/
structure AddressArithmetic (x : Executor) : Prop where
  /-- The distance of the stacks of two lanes. -/
  stride : ∃ f n, x.exe.module.function? setupName = some f
    ∧ f.body.head? = some (.assign headerBase (.binary .mul .laneIndex (.u32 n)))
    ∧ (n.toNat = LaneStack.headerWords + x.exe.stackWords.toNat
      ↔ LaneStack.headerWords + x.exe.stackWords.toNat < 2 ^ 32)
  /-- The addresses of all words of a region. -/
  addresses : ∀ r, (∀ ln ∈ x.lanes, ∀ j < regionSize x.exe r, ExactAddress x.exe ln.index r j)
    ↔ x.lanes.length * regionSize x.exe r ≤ 2 ^ 32
  /-- A push starts with a check against the size of the stack. -/
  checked : ∀ q : Push,
    (q.finish x.exe.stackWords).head? = some (pushCheck q.size x.exe.stackWords)
  /-- The check of a push within the stack. -/
  check : ∀ sp n, sp ≤ x.exe.stackWords.toNat → n ≤ x.exe.stackWords.toNat →
    (ExactCheck x.exe.stackWords sp n ↔ sp + n < 2 ^ 32)
  /-- The checks of all pushes within the stack. -/
  checks : (∀ sp n, sp ≤ x.exe.stackWords.toNat → n ≤ x.exe.stackWords.toNat →
    ExactCheck x.exe.stackWords sp n) ↔ 2 * x.exe.stackWords.toNat < 2 ^ 32
  /-- A push by the host, on the stack of any lane. -/
  host : ∀ ln ∈ x.lanes, ∀ stack : LaneStack, stack.words.size = ln.stack.words.size →
    ∀ ws, ((stack.push ws).isOk = true ↔ stack.sp.toNat + ws.length ≤ x.exe.stackWords.toNat)

section Executors

variable {exe : Compile.Executable} {settings : Settings} {x : Executor}

/-- The last word of the last lane decides. -/
theorem exactAddresses_iff (hx : Runnable exe)
    (hnew : Executor.new (some exe) settings = .ok x) (r : Region) :
    (∀ ln ∈ x.lanes, ∀ j < regionSize exe r, ExactAddress exe ln.index r j)
      ↔ x.lanes.length * regionSize exe r ≤ 2 ^ 32 := by
  have hready := ready_new hnew
  have hpos : 0 < x.lanes.length := by
    cases hnew
    rw [List.length_map, List.length_range]
    omega
  constructor
  · intro h
    by_cases hsize : regionSize exe r = 0
    · rw [hsize]
      omega
    · obtain ⟨n, hn⟩ : ∃ n, x.lanes.length = n + 1 := ⟨x.lanes.length - 1, by omega⟩
      have hlt : n < x.lanes.length := by omega
      have hindex := (hready n _ (List.getElem?_eq_getElem hlt)).1
      have hlast := h x.lanes[n] (List.getElem_mem hlt) (regionSize exe r - 1) (by omega)
      rw [exactAddress_iff hx, hindex] at hlast
      rw [hn, Nat.succ_mul]
      omega
  · intro h ln hln j hj
    obtain ⟨i, hi, rfl⟩ := List.getElem_of_mem hln
    have hindex := (hready i _ (List.getElem?_eq_getElem hi)).1
    have hle : (i + 1) * regionSize exe r ≤ x.lanes.length * regionSize exe r :=
      Nat.mul_le_mul_right _ hi
    rw [exactAddress_iff hx, hindex]
    rw [Nat.succ_mul] at hle
    omega

theorem Runnable.addressArithmetic (hx : Runnable exe)
    (hnew : Executor.new (some exe) settings = .ok x) : AddressArithmetic x := by
  have hexe : x.exe = exe := by cases hnew; rfl
  have hready := ready_new hnew
  subst hexe
  refine
    { stride := ⟨_, LaneStack.headerWords.toUInt32 + x.exe.stackWords, hx.setup, rfl, ?_⟩
      addresses := exactAddresses_iff hx hnew
      checked := fun q => head?_finish q _
      check := fun sp n => exactCheck_iff
      checks := exactChecks_iff
      host := fun ln hln stack hsize ws => ?_ }
  · have hlt := x.exe.stackWords.toNat_lt
    have htwo : LaneStack.headerWords.toUInt32.toNat = LaneStack.headerWords := rfl
    rw [UInt32.toNat_add, htwo, LaneStack.headerWords]
    omega
  · obtain ⟨i, hi, rfl⟩ := List.getElem_of_mem hln
    have hwords : stack.words.size = regionSize x.exe .stack :=
      hsize.trans ((hready i _ (List.getElem?_eq_getElem hi)).2 .stack)
    rw [isOk_push_iff, LaneStack.capacity, hwords, regionSize, Nat.add_sub_cancel_left]

end Executors

end Execution

/-! ## Compiled modules -/

namespace Compile

open Execution

variable {config : Config} {p : Program} {out : Compiled}

/-- The 32-bit arithmetic of a compiled module is exact within its limits. -/
theorem compile_reckons {m : Binary.Module} (hread : Program.ofModule m = .ok p)
    (h : compile config p = .ok out) {settings : Settings} {x : Executor}
    (hnew : Executor.new (some out.toExecutable) settings = .ok x) : AddressArithmetic x :=
  (runnable_of_compile (Program.formed_of_ofModule hread) h).addressArithmetic hnew

/-! The largest stack that there is a number of 32 bits for, on which both sums wrap around. -/

def widest : Config := { stackWords := 0xffffffff }

theorem coded_widest : unsupportedFunctions widest.withDefaults questionProgram = .ok []
    ∧ (Compile.plan widest.withDefaults questionProgram questionGraph.analyze
      ((skippedFunctions questionGraph []).map (·.1))).isOk = true := by
  decide +kernel

/-- The settings are accepted. -/
theorem compile_widest : ∃ out, compile widest questionProgram = .ok out
    ∧ out.stackWords = 0xffffffff := by
  have hp := Program.formed_of_ofModule read_question
  obtain ⟨out, hout, -⟩ :=
    compile_isOk hp namesDiffer_question coded_widest.1 build_question coded_widest.2
  obtain ⟨-, g, plan, direct, machines, entries, -, horigin, -⟩ := compile_eq_ok hp hout
  exact ⟨out, hout, congrArg (·.stackWords) horigin.eq⟩

/-- The theorem at the largest stack, on two lanes. -/
theorem compile_reckons_question : Program.ofModule question = .ok questionProgram
    ∧ ∃ out x, compile widest questionProgram = .ok out
      ∧ Executor.new (some out.toExecutable) { lanes := 2 } = .ok x ∧ AddressArithmetic x := by
  obtain ⟨out, hout, -⟩ := compile_widest
  exact ⟨read_question, out, _, hout, rfl, compile_reckons read_question hout rfl⟩

/-- With the largest stack the distance of two lanes' stacks comes out as one word, the last word
of the only lane has no address, and the check lets a push of two words through that does not fit
on a full stack and that the host refuses. -/
theorem widest_stack_wraps : ∃ out x, compile widest questionProgram = .ok out
    ∧ Executor.new (some out.toExecutable) {} = .ok x
    ∧ (∃ f, x.exe.module.function? setupName = some f
      ∧ f.body.head? = some (.assign headerBase (.binary .mul .laneIndex (.u32 1)))
      ∧ LaneStack.headerWords + x.exe.stackWords.toNat = 4294967297)
    ∧ (∃ ln ∈ x.lanes, 4294967296 < regionSize x.exe .stack
      ∧ ¬ExactAddress x.exe ln.index .stack 4294967296)
    ∧ ¬ExactCheck x.exe.stackWords 4294967295 2
    ∧ ∀ stack : LaneStack, stack.words.size = regionSize x.exe .stack → stack.sp = 4294967295 →
      ∀ a b, (stack.push [a, b]).isOk = false := by
  obtain ⟨out, hout, hwide⟩ := compile_widest
  have hx := runnable_of_compile (Program.formed_of_ofModule read_question) hout
  have hsize : regionSize out.toExecutable .stack = 4294967297 := by
    rw [regionSize, hwide]
    rfl
  refine ⟨out, _, hout, rfl, ⟨_, hx.setup, ?_, ?_⟩,
    ⟨_, List.mem_map_of_mem (List.mem_range.mpr Nat.zero_lt_one), ?_, ?_⟩, ?_, ?_⟩
  · have hstride : LaneStack.headerWords.toUInt32 + (0xffffffff : UInt32) = 1 := by decide
    rw [hwide, setupFunction, List.head?_cons, hstride]
  · exact hsize
  · rw [hsize]
    decide
  · rw [exactAddress_iff hx, hsize]
    change ¬0 * 4294967297 + 4294967296 < 2 ^ 32
    decide
  · rw [hwide, exactCheck_iff (by decide) (by decide)]
    decide
  · intro stack hwords hsp a b
    rw [← Bool.not_eq_true, isOk_push_iff, LaneStack.capacity, hwords, hsize, hsp]
    change ¬4294967295 + 2 ≤ 4294967297 - 2
    decide

end Compile

end WasmShader
