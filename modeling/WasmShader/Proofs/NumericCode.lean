import WasmShader.Proofs.Meaning
import WasmShader.Proofs.ShaderTyping
import WasmShader.Proofs.Structured
import WasmShader.Proofs.Typing

/-!
# The code of numeric instructions

What the statements of a numeric instruction compute depends only on the values of its
operands: it is what `numericResult` says, whichever variables the operands are in and
wherever the result goes. On operands of the right types it is a value of the result type,
or one of the three arithmetic traps.
-/

namespace WasmShader

open Execution Shader
open Emit hiding State

/-! ## Checks and values -/

/-- Runs checks, each a condition and the trap it stands for. -/
def checkAll (l : Layout) (s : State) : List (Expr × TrapCode) → Except Stop Unit
  | [] => .ok ()
  | (cond, code) :: rest => do
    if (← eval l s cond).truth then throw (.trap code) else checkAll l s rest

/-- The value of an expression behind checks. -/
def computed (l : Layout) (s : State) (checks : List (Expr × TrapCode)) (value : Expr) :
    Except Stop Datum := do
  checkAll l s checks
  eval l s value

/-- The checks of a 32-bit integer instruction. -/
def i32Checks (m : Mnemonic) (a b : Expr) : List (Expr × TrapCode) :=
  let zero : Expr × TrapCode := (.binary .eq b (.u32 0), .divByZero)
  match m with
  | .divU | .remU | .remS => [zero]
  | .divS =>
    [zero, (.binary .logicalAnd (.binary .eq a (.u32 0x80000000))
      (.binary .eq b (.u32 0xffffffff)), .intOverflow)]
  | _ => []

/-- The checks of a numeric instruction. -/
def numericChecks (l : Layout) (op : NumericOp) (args : List Expr) : List (Expr × TrapCode) :=
  if needsEmulation l op then []
  else match op.type with
    | .i32 => i32Checks op.mnemonic (args.getD 0 .absent) (args.getD 1 .absent)
    | _ => []

/-- The expression of the result of a numeric instruction. -/
def numericExpr (l : Layout) (op : NumericOp) (args : List Expr) : Expr :=
  let intrinsic : Expr := .intrinsic op.name args op.signature.params op.signature.results
  let a := args.getD 0 .absent
  let b := args.getD 1 .absent
  if needsEmulation l op then intrinsic
  else match op.type with
    | .i32 => ((lowerI32 op.mnemonic a b).map (·.value)).getD intrinsic
    | .i64 => (lowerI64 op.mnemonic a).getD intrinsic
    | .f32 | .f64 => (lowerFloat (Ty.carrier l op.type) op.mnemonic a b).getD intrinsic
    | .v128 | .reserved _ => intrinsic

/-- The function that a numeric instruction calls. -/
def pairFunction? (op : NumericOp) : Option Shader.Function :=
  if op = ⟨.i64, .add⟩ then some i64AddFunction
  else if op = ⟨.i64, .sub⟩ then some i64SubFunction
  else none

theorem checks_lowerI32 {m : Mnemonic} {a b : Expr} {low : Lowered}
    (h : lowerI32 m a b = some low) :
    low.checks = (i32Checks m a b).map fun c => trapIf c.1 c.2 := by
  cases m <;> first | (obtain rfl := Option.some.inj h; rfl) | cases h

theorem i32Checks_of_lowerI32_none {m : Mnemonic} {a b : Expr}
    (h : lowerI32 m a b = none) : i32Checks m a b = [] := by
  cases m <;> first | rfl | cases h

/-- The statements of a numeric instruction that calls no function. -/
theorem numericStmts_eq {l : Layout} {op : NumericOp} (hop : pairFunction? op = none)
    (args : List Expr) (dst : String) :
    numericStmts l op args dst
      = ((numericChecks l op args).map fun c => trapIf c.1 c.2)
        ++ [.assign dst (numericExpr l op args)] := by
  unfold numericStmts numericChecks numericExpr
  by_cases hemul : needsEmulation l op = true
  · simp only [hemul, if_true, List.map_nil, List.nil_append]
  · simp only [hemul, if_false, Bool.false_eq_true]
    obtain ⟨t, m⟩ := op
    cases t with
    | i32 =>
        cases hlow : lowerI32 m (args.getD 0 .absent) (args.getD 1 .absent) with
        | none => simp only [i32Checks_of_lowerI32_none hlow]; rfl
        | some low => simp only [checks_lowerI32 hlow]; rfl
    | i64 =>
        have hadd : m ≠ .add := by rintro rfl; simp [pairFunction?] at hop
        have hsub : m ≠ .sub := by rintro rfl; simp [pairFunction?] at hop
        dsimp only
        split
        · exact absurd rfl hadd
        · exact absurd rfl hsub
        · cases lowerI64 m (args.getD 0 .absent) <;> rfl
    | f32 => cases lowerFloat (Ty.carrier l .f32) m (args.getD 0 .absent) (args.getD 1 .absent) <;> rfl
    | f64 => cases lowerFloat (Ty.carrier l .f64) m (args.getD 0 .absent) (args.getD 1 .absent) <;> rfl
    | v128 => rfl
    | reserved _ => rfl

/-! ## Runs with a given fuel -/

section Fuel

variable {env : Env} {s t : State}

theorem outcome_stmts_cons {n : Nat} {st : Stmt} {rest : List Stmt}
    (h : Exec.outcome (Exec.stmt env n st) s = some (.ok .next, t)) :
    Exec.outcome (Exec.stmts env (n + 1) (st :: rest)) s
      = Exec.outcome (Exec.stmts env n rest) t := by
  rw [Exec.stmts, Exec.outcome_bind_ok h]

theorem outcome_stmts_cons_error {n : Nat} {st : Stmt} {rest : List Stmt} {e : Stop}
    (h : Exec.outcome (Exec.stmt env n st) s = some (.error e, t)) :
    Exec.outcome (Exec.stmts env (n + 1) (st :: rest)) s = some (.error e, t) := by
  rw [Exec.stmts, Exec.outcome_bind_error h]

theorem outcome_stmts_ret (n : Nat) {es : List Expr} {ds : List Datum} {rest : List Stmt}
    (h : evalAll env.exe.layout s es = .ok ds) :
    Exec.outcome (Exec.stmts env (n + 2) (.ret es :: rest)) s = some (.ok (.ret ds), s) := by
  rw [Exec.stmts, Exec.stmt, Exec.outcome_bind_ok (a := .ret ds) (t := s)]
  · rfl
  · rw [Exec.outcome_bind_ok (outcome_values_ok h)]; rfl

theorem outcome_stmt_assign (n : Nat) {name : String} {e : Expr} {d : Datum}
    (he : eval env.exe.layout s e = .ok d) (hs : s.assign? name d = some t) :
    Exec.outcome (Exec.stmt env (n + 1) (.assign name e)) s = some (.ok .next, t) := by
  rw [Exec.stmt, Exec.outcome_bind_ok (outcome_value_ok he),
    Exec.outcome_bind_ok (outcome_assign hs)]
  rfl

theorem outcome_stmt_assign_trap (n : Nat) {name : String} {e : Expr} {code : TrapCode}
    (he : eval env.exe.layout s e = .error (.trap code)) :
    Exec.outcome (Exec.stmt env (n + 1) (.assign name e)) s
      = some (.error (.trap code), s.trapped code) := by
  rw [Exec.stmt, Exec.outcome_bind_error (outcome_value_trap he)]

theorem outcome_stmt_trapIf (n : Nat) {cond : Expr} {code : TrapCode} {c : Datum}
    (hc : eval env.exe.layout s cond = .ok c) :
    Exec.outcome (Exec.stmt env (n + 3) (trapIf cond code)) s
      = if c.truth then some (.error (.trap code), s.trapped code) else some (.ok .next, s) := by
  rw [trapIf, Exec.stmt, Exec.outcome_bind_ok (outcome_value_ok hc)]
  split
  · rw [Exec.stmts, Exec.stmt, Exec.outcome_bind_error (t := s.trapped code) rfl]
  · rw [Exec.stmts]; rfl

theorem outcome_stmt_trapIf_trap (n : Nat) {cond : Expr} {code why : TrapCode}
    (hc : eval env.exe.layout s cond = .error (.trap why)) :
    Exec.outcome (Exec.stmt env (n + 1) (trapIf cond code)) s
      = some (.error (.trap why), s.trapped why) := by
  rw [trapIf, Exec.stmt, Exec.outcome_bind_error (outcome_value_trap hc)]

/-- Checks and an assignment need little fuel and come to what is computed. -/
theorem outcome_computed_ok (n : Nat) {checks : List (Expr × TrapCode)} {value : Expr}
    {dst : String} {d : Datum} (h : computed env.exe.layout s checks value = .ok d)
    (hs : s.assign? dst d = some t) :
    Exec.outcome (Exec.stmts env (n + 4 + checks.length)
      ((checks.map fun c => trapIf c.1 c.2) ++ [.assign dst value])) s = some (.ok .next, t) := by
  induction checks with
  | nil =>
      rw [List.map_nil, List.nil_append, List.length_nil, Nat.add_zero,
        outcome_stmts_cons (outcome_stmt_assign _ h hs), Exec.stmts]
      rfl
  | cons check checks ih =>
      obtain ⟨cond, code⟩ := check
      rw [computed, checkAll] at h
      cases hc : eval env.exe.layout s cond with
      | error e => rw [hc] at h; cases h
      | ok c =>
          rw [hc] at h
          by_cases ht : c.truth = true
          · simp only [bind, Except.bind, ht, if_true] at h; cases h
          · simp only [bind, Except.bind, ht] at h
            rw [List.map_cons, List.cons_append, List.length_cons, ← Nat.add_assoc,
              outcome_stmts_cons (t := s)]
            · exact ih h
            · rw [show n + 4 + checks.length = n + checks.length + 1 + 3 by omega,
                outcome_stmt_trapIf _ hc, if_neg ht]

theorem outcome_computed_trap (n : Nat) {checks : List (Expr × TrapCode)} {value : Expr}
    {dst : String} {why : TrapCode}
    (h : computed env.exe.layout s checks value = .error (.trap why)) :
    Exec.outcome (Exec.stmts env (n + 4 + checks.length)
      ((checks.map fun c => trapIf c.1 c.2) ++ [.assign dst value])) s
        = some (.error (.trap why), s.trapped why) := by
  induction checks with
  | nil =>
      rw [List.map_nil, List.nil_append, List.length_nil, Nat.add_zero,
        outcome_stmts_cons_error (outcome_stmt_assign_trap _ h)]
  | cons check checks ih =>
      obtain ⟨cond, code⟩ := check
      rw [computed, checkAll] at h
      rw [List.map_cons, List.cons_append, List.length_cons, ← Nat.add_assoc]
      have hfuel : n + 4 + checks.length = n + checks.length + 1 + 3 := by omega
      cases hc : eval env.exe.layout s cond with
      | error e =>
          rw [hc] at h
          cases h
          rw [hfuel]
          exact outcome_stmts_cons_error (outcome_stmt_trapIf_trap _ hc)
      | ok c =>
          rw [hc] at h
          by_cases ht : c.truth = true
          · simp only [bind, Except.bind, ht, if_true] at h
            cases h
            refine outcome_stmts_cons_error ?_
            rw [hfuel, outcome_stmt_trapIf _ hc, if_pos ht]
          · simp only [bind, Except.bind, ht] at h
            rw [outcome_stmts_cons (t := s)]
            · exact ih h
            · rw [hfuel, outcome_stmt_trapIf _ hc, if_neg ht]

theorem outcome_call (n : Nat) {f : Shader.Function} {args ds : List Datum}
    (hlen : args.length = f.params.length)
    (h : Exec.outcome (Exec.stmts env n f.body) { s with vars := Exec.frame f args }
      = some (.ok (.ret ds), t)) :
    Exec.outcome (Exec.call env (n + 1) f args) s = some (.ok ds, { t with vars := s.vars }) := by
  simp only [Exec.call, hlen, ne_eq, not_true_eq_false, if_false]
  rw [Exec.outcome_bind_ok (a := s) (t := s) rfl]
  rw [Exec.outcome_bind_ok (a := ()) (t := { s with vars := Exec.frame f args }) rfl]
  rw [Exec.outcome_bind_ok h]
  rfl

/-- A call of a function that is not a block, for one result. -/
theorem outcome_stmt_call_single (n : Nat) {name dst : String} {args : List Expr}
    {f : Shader.Function} {ds : List Datum} {d : Datum}
    (hf : env.exe.module.function? name = some f) (hblock : env.exe.blockNamed? name = none)
    (hargs : evalAll env.exe.layout s args = .ok ds)
    (hcall : Exec.outcome (Exec.call env n f ds) s = some (.ok [d], s))
    (hs : s.assign? dst d = some t) :
    Exec.outcome (Exec.stmt env (n + 1) (.call name args [dst])) s = some (.ok .next, t) := by
  simp only [Exec.stmt, hf, hblock]
  rw [Exec.outcome_bind_ok (outcome_values_ok hargs), Exec.outcome_bind_ok hcall]
  simp only [List.length_cons, List.length_nil, ne_eq, not_true_eq_false, if_false]
  rw [Exec.outcome_bind_ok (a := ()) (t := t)]
  · rfl
  · rw [Exec.assignAll, Exec.outcome_bind_ok (outcome_assign hs)]; rfl

end Fuel

/-! ## 64-bit sums and differences -/

theorem truth_ofBool (b : Bool) : (Datum.ofBool b).truth = b := by
  cases b <;> rfl

theorem eval_boolToU32 {l : Layout} {s : State} {c : Expr} {b : Bool}
    (h : eval l s c = .ok (.ofBool b)) :
    eval l s (boolToU32 c) = .ok (.ofU32 (if b then 1 else 0)) := by
  rw [boolToU32, eval, h]
  cases b <;> rfl

def pairSum (a b : Datum) : Datum :=
  .ofWords .vec2 [a.x + b.x, a.y + b.y + (if a.x + b.x < a.x then 1 else 0)]

def pairDifference (a b : Datum) : Datum :=
  .ofWords .vec2 [a.x - b.x, a.y - b.y - (if a.x < b.x then 1 else 0)]

/-- What the function of a numeric instruction gives for its operands. -/
def pairValue (op : NumericOp) : List Datum → Datum
  | [a, b] => if op.mnemonic = .add then pairSum a b else pairDifference a b
  | _ => .zero .vec2

variable {env : Env} {s t : State}

theorem outcome_call_add (n : Nat) (a b : Datum) :
    Exec.outcome (Exec.call env (n + 4) i64AddFunction [a, b]) s = some (.ok [pairSum a b], s) := by
  have hframe : Exec.frame i64AddFunction [a, b] = [("lo", .zero .u32), ("b", b), ("a", a)] := rfl
  rw [outcome_call
    (t := { s with vars := [("lo", .ofU32 (a.x + b.x)), ("b", b), ("a", a)] }) (n + 3) rfl]
  rw [hframe, i64AddFunction,
    outcome_stmts_cons (outcome_stmt_assign _ (d := .ofU32 (a.x + b.x)) rfl rfl),
    outcome_stmts_ret]
  simp only [evalAll, eval]
  rw [eval_boolToU32 (b := decide (a.x + b.x < a.x)) rfl]
  simp only [decide_eq_true_eq]
  rfl

theorem outcome_call_sub (n : Nat) (a b : Datum) :
    Exec.outcome (Exec.call env (n + 3) i64SubFunction [a, b]) s
      = some (.ok [pairDifference a b], s) := by
  have hframe : Exec.frame i64SubFunction [a, b] = [("b", b), ("a", a)] := rfl
  rw [outcome_call (t := { s with vars := [("b", b), ("a", a)] }) (n + 2) rfl]
  rw [hframe, i64SubFunction, outcome_stmts_ret]
  simp only [evalAll, eval]
  rw [eval_boolToU32 (b := decide (a.x < b.x)) rfl]
  simp only [decide_eq_true_eq]
  rfl

/-- The functions of numeric instructions are in the module, and are not blocks. -/
structure HasNumeric (env : Env) : Prop where
  function? : ∀ f ∈ numericFunctions, env.exe.module.function? f.name = some f
  notBlock : ∀ f ∈ numericFunctions, env.exe.blockNamed? f.name = none

theorem mem_of_pairFunction {op : NumericOp} {f : Shader.Function}
    (h : pairFunction? op = some f) : f ∈ numericFunctions := by
  unfold pairFunction? at h
  split at h
  · cases h; exact List.mem_cons_self
  · split at h
    · cases h; exact List.mem_cons_of_mem _ List.mem_cons_self
    · cases h

theorem numericStmts_pair {l : Layout} {op : NumericOp} {f : Shader.Function}
    (h : pairFunction? op = some f) (args : List Expr) (dst : String) :
    numericStmts l op args dst = [.call f.name args [dst]] := by
  have hemul {m : Mnemonic} (hm : m.source? = none) : needsEmulation l ⟨.i64, m⟩ = false := by
    unfold needsEmulation NumericOp.signature
    rw [hm]
    simp only
    split
    · simp
    · split
      · simp
      · split
        · simp
        · simp
  unfold pairFunction? at h
  split at h
  · next hop => cases h; rw [hop, numericStmts, hemul rfl]; rfl
  · split at h
    · next hop => cases h; rw [hop, numericStmts, hemul rfl]; rfl
    · cases h

theorem outcome_call_pair (n : Nat) {op : NumericOp} {f : Shader.Function}
    (h : pairFunction? op = some f) (a b : Datum) :
    Exec.outcome (Exec.call env (n + 4) f [a, b]) s = some (.ok [pairValue op [a, b]], s) := by
  unfold pairFunction? at h
  split at h
  · next hop => cases h; rw [hop]; exact outcome_call_add n a b
  · split at h
    · next hop => cases h; rw [hop]; exact outcome_call_sub (n + 1) a b
    · cases h

/-! ## The value of a numeric instruction -/

/-- What a numeric instruction computes on operands given by expressions. -/
def numericValue (l : Layout) (s : State) (op : NumericOp) (args : List Expr) :
    Except Stop Datum :=
  match pairFunction? op with
  | some _ => do return pairValue op (← evalAll l s args)
  | none => computed l s (numericChecks l op args) (numericExpr l op args)

theorem length_numericChecks (l : Layout) (op : NumericOp) (args : List Expr) :
    (numericChecks l op args).length ≤ 2 := by
  unfold numericChecks
  split
  · exact Nat.zero_le _
  · split
    · unfold i32Checks
      split <;> simp
    · exact Nat.zero_le _

theorem outcome_numeric_ok (henv : HasNumeric env) {n : Nat} (hn : 16 ≤ n) {op : NumericOp}
    {args : List Expr} {ds : List Datum} {dst : String} {d : Datum}
    (hargs : evalAll env.exe.layout s args = .ok ds) (hlen : ds.length = 2 ∨ pairFunction? op = none)
    (h : numericValue env.exe.layout s op args = .ok d) (hs : s.assign? dst d = some t) :
    Exec.outcome (Exec.stmts env n (numericStmts env.exe.layout op args dst)) s
      = some (.ok .next, t) := by
  unfold numericValue at h
  split at h
  · next f hf =>
    obtain ⟨a, b, rfl⟩ : ∃ a b, ds = [a, b] := by
      rw [hf] at hlen
      exact List.length_eq_two.mp (hlen.resolve_right (by simp))
    rw [hargs] at h
    cases h
    obtain ⟨n, rfl⟩ : ∃ k, n = k + 6 := ⟨n - 6, by omega⟩
    rw [numericStmts_pair hf, outcome_stmts_cons (t := t), Exec.stmts]
    · rfl
    · exact outcome_stmt_call_single (n + 4) (henv.function? f (mem_of_pairFunction hf))
        (henv.notBlock f (mem_of_pairFunction hf)) hargs (outcome_call_pair n hf a b) hs
  · next hf =>
    have hle := length_numericChecks env.exe.layout op args
    obtain ⟨k, hk⟩ : ∃ k, n = k + 4 + (numericChecks env.exe.layout op args).length :=
      ⟨n - 4 - (numericChecks env.exe.layout op args).length, by omega⟩
    rw [numericStmts_eq hf, hk]
    exact outcome_computed_ok k h hs

theorem outcome_numeric_trap {n : Nat} (hn : 16 ≤ n) {op : NumericOp} {args : List Expr}
    {ds : List Datum} {dst : String} {why : TrapCode}
    (hargs : evalAll env.exe.layout s args = .ok ds)
    (h : numericValue env.exe.layout s op args = .error (.trap why)) :
    Exec.outcome (Exec.stmts env n (numericStmts env.exe.layout op args dst)) s
      = some (.error (.trap why), s.trapped why) := by
  unfold numericValue at h
  split at h
  · rw [hargs] at h; cases h
  · next hf =>
    have hle := length_numericChecks env.exe.layout op args
    obtain ⟨k, hk⟩ : ∃ k, n = k + 4 + (numericChecks env.exe.layout op args).length :=
      ⟨n - 4 - (numericChecks env.exe.layout op args).length, by omega⟩
    rw [numericStmts_eq hf, hk]
    exact outcome_computed_trap k h

/-! ## Only the operands matter -/

section Alike

variable {s' : State} {l : Layout} {a b a' b' : Expr} {args args' : List Expr}

theorem evalAll_congr (h : List.Forall₂ (fun e e' => eval l s e = eval l s' e') args args') :
    evalAll l s args = evalAll l s' args' := by
  induction h with
  | nil => simp only [evalAll]
  | cons hd _ ih => rw [evalAll, evalAll, hd, ih]

theorem eval_getD_congr (h : List.Forall₂ (fun e e' => eval l s e = eval l s' e') args args')
    (i : Nat) : eval l s (args.getD i .absent) = eval l s' (args'.getD i .absent) := by
  induction h generalizing i with
  | nil => simp only [List.getD_nil, eval]
  | cons hd _ ih =>
      cases i with
      | zero => exact hd
      | succ i => exact ih i

theorem lowerI32_congr (m : Mnemonic) (ha : eval l s a = eval l s' a')
    (hb : eval l s b = eval l s' b') :
    (lowerI32 m a b).map (fun low => eval l s low.value)
      = (lowerI32 m a' b').map (fun low => eval l s' low.value) := by
  cases m <;> simp [lowerI32, comparison?, unary?, eval, asI32, asU32, boolToU32, mask31,
    lowerI32.rotate, lowerI32.extend, Expr.u32, ha, hb]

theorem lowerI64_congr (m : Mnemonic) (ha : eval l s a = eval l s' a') :
    (lowerI64 m a).map (eval l s) = (lowerI64 m a').map (eval l s') := by
  cases m <;> simp [lowerI64, eval, evalAll, asI32, asU32, Expr.u32, ha]

theorem lowerFloat_congr (t : Ty) (m : Mnemonic) (ha : eval l s a = eval l s' a')
    (hb : eval l s b = eval l s' b') :
    (lowerFloat t m a b).map (eval l s) = (lowerFloat t m a' b').map (eval l s') := by
  cases m <;> simp [lowerFloat, comparison?, unary?, eval, asI32, boolToU32, Expr.u32, ha, hb]

theorem checkAll_i32Checks_congr (m : Mnemonic) (ha : eval l s a = eval l s' a')
    (hb : eval l s b = eval l s' b') :
    checkAll l s (i32Checks m a b) = checkAll l s' (i32Checks m a' b') := by
  cases m <;> simp [i32Checks, checkAll, eval, Expr.u32, ha, hb]

theorem map_getD {α β : Type} (f : α → β) (o : Option α) (x : α) :
    f (o.getD x) = (o.map f).getD (f x) := by
  cases o <;> rfl

theorem eval_numericExpr_congr (op : NumericOp)
    (h : List.Forall₂ (fun e e' => eval l s e = eval l s' e') args args') :
    eval l s (numericExpr l op args) = eval l s' (numericExpr l op args') := by
  have ha := eval_getD_congr h 0
  have hb := eval_getD_congr h 1
  have hintr : eval l s (.intrinsic op.name args op.signature.params op.signature.results)
      = eval l s' (.intrinsic op.name args' op.signature.params op.signature.results) := by
    rw [eval, eval, evalAll_congr h]
  unfold numericExpr
  split
  · exact hintr
  · cases op.type with
    | i32 =>
        dsimp only
        have hlow := lowerI32_congr op.mnemonic ha hb
        rw [map_getD (eval l s), map_getD (eval l s'), Option.map_map, Option.map_map, hintr]
        exact congrArg (fun o => Option.getD o _) hlow
    | i64 =>
        dsimp only
        rw [map_getD (eval l s), map_getD (eval l s'), lowerI64_congr _ ha, hintr]
    | f32 =>
        dsimp only
        rw [map_getD (eval l s), map_getD (eval l s'), lowerFloat_congr _ _ ha hb, hintr]
    | f64 =>
        dsimp only
        rw [map_getD (eval l s), map_getD (eval l s'), lowerFloat_congr _ _ ha hb, hintr]
    | v128 => exact hintr
    | reserved _ => exact hintr

/-- What a numeric instruction computes depends only on the values of its operands. -/
theorem numericValue_congr (op : NumericOp)
    (h : List.Forall₂ (fun e e' => eval l s e = eval l s' e') args args') :
    numericValue l s op args = numericValue l s' op args' := by
  unfold numericValue
  split
  · rw [evalAll_congr h]
  · have hchecks : checkAll l s (numericChecks l op args)
        = checkAll l s' (numericChecks l op args') := by
      unfold numericChecks
      split
      · rfl
      · split
        · exact checkAll_i32Checks_congr _ (eval_getD_congr h 0) (eval_getD_congr h 1)
        · rfl
    rw [computed, computed, hchecks, eval_numericExpr_congr op h]

end Alike

/-! ## Instructions on their own -/

open Structured (operandVar resultVar numericEnv numericState numericResult)

/-- The operands of a numeric instruction on its own. -/
def operandExprs (n : Nat) : List Expr := (List.range n).map fun i => .var (operandVar i)

/-- The types of the variables of a numeric instruction on its own. -/
def operandTypes (l : Layout) (op : NumericOp) : List (String × Ty) :=
  op.signature.params.mapIdx fun i t => (operandVar i, Ty.carrier l t)

/-- The code of a numeric instruction is typed. -/
def isTypedCode (l : Layout) (op : NumericOp) : Bool :=
  let args := operandExprs op.signature.params.length
  typeOf l op (operandTypes l op) (numericExpr l op args)
      = some (Ty.carrier l (op.signature.results.headD .i32))
    && (numericChecks l op args).all fun c =>
      typeOf l op (operandTypes l op) c.1 = some .bool && c.2.isArithmetic

theorem isTypedCode_of_mem (l : Layout) {op : NumericOp} (hop : op ∈ NumericOp.table.toList)
    (hpair : pairFunction? op = none) : isTypedCode l op = true := by
  have hall : ∀ native, ∀ op ∈ NumericOp.table.toList,
      (pairFunction? op).isSome || isTypedCode ⟨native⟩ op = true := by decide +kernel
  have h := hall l.nativeF64 op hop
  rw [hpair] at h
  simpa using h

/-- What a numeric instruction takes and gives. -/
structure NumericOp.Shape (op : NumericOp) : Prop where
  params : AllKnown op.signature.params
  results : ∃ t, op.signature.results = [t] ∧ t.isKnown = true
  arity : op.signature.params.length = 1 ∨ op.signature.params.length = 2
  pair : pairFunction? op = none ∨ op.signature = ⟨[.i64, .i64], [.i64]⟩

/-- The instruction has a first operand. -/
theorem NumericOp.Shape.first {op : NumericOp} (h : op.Shape) :
    ∃ t, op.signature.params[0]? = some t :=
  ⟨_, List.getElem?_eq_getElem (by have := h.arity; omega)⟩

theorem shape_of_mem {op : NumericOp} (hop : op ∈ NumericOp.table.toList) : op.Shape := by
  have hall : ∀ op ∈ NumericOp.table.toList, (op.signature.params.all (·.isKnown)
      && op.signature.results.all (·.isKnown)
      && (op.signature.params.length = 1 || op.signature.params.length = 2)
      && op.signature.results.length = 1
      && ((pairFunction? op).isNone || op.signature = ⟨[.i64, .i64], [.i64]⟩)) = true := by
    decide +kernel
  have h := hall op hop
  simp only [Bool.and_eq_true, Bool.or_eq_true, decide_eq_true_eq, List.all_eq_true,
    Option.isNone_iff_eq_none] at h
  obtain ⟨⟨⟨⟨hparams, hresults⟩, harity⟩, hlen⟩, hpair⟩ := h
  obtain ⟨t, ht⟩ := List.length_eq_one_iff.mp hlen
  exact ⟨hparams, ⟨t, ht, hresults t (by rw [ht]; exact List.mem_cons_self)⟩, harity, hpair⟩

theorem hasNumeric_numericEnv (l : Layout) : HasNumeric (numericEnv l) where
  function? := by
    intro f hf
    simp only [numericFunctions, List.mem_cons, List.not_mem_nil, or_false] at hf
    rcases hf with rfl | rfl
    · rfl
    · rfl
  notBlock := fun _ _ => rfl

theorem evalAll_operandExprs (l : Layout) {ds : List Datum} (hlen : ds.length = 1 ∨ ds.length = 2) :
    List.Forall₂ (fun e d => eval l (numericState ds) e = .ok d) (operandExprs ds.length) ds := by
  rcases hlen with hlen | hlen
  · obtain ⟨d, rfl⟩ := List.length_eq_one_iff.mp hlen
    exact .cons (by rw [eval]; rfl) .nil
  · obtain ⟨d, d', rfl⟩ := List.length_eq_two.mp hlen
    have hresult : (operandVar 1 == resultVar) = false := by decide
    have hfirst : (operandVar 1 == operandVar 0) = false := by decide
    have hsecond : (numericState [d, d']).lookup (operandVar 1) = .ok d' := by
      simp only [numericState, State.lookup, List.mapIdx_cons, List.mapIdx_nil, List.lookup_cons,
        hresult, hfirst, Nat.zero_add, beq_self_eq_true]
    exact .cons (by rw [eval]; rfl) (.cons (by rw [eval]; exact hsecond) .nil)

theorem evalAll_of_forall₂ {l : Layout} {args : List Expr} {ds : List Datum}
    (h : List.Forall₂ (fun e d => eval l s e = .ok d) args ds) : evalAll l s args = .ok ds := by
  induction h with
  | nil => rw [evalAll]; rfl
  | cons hd _ ih => rw [evalAll, hd, ih]; rfl

theorem lookup_operandTypes {l : Layout} {op : NumericOp} (hshape : op.Shape) {ds : List Datum}
    (hfits : FitsAll l op.signature.params ds) :
    ∀ name t, (operandTypes l op).lookup name = some t →
      ∃ d, (numericState ds).lookup name = .ok d ∧ d.Clean t := by
  -- The two lists have the same one or two names, in front of which the state has its result.
  have hvar {name : String} {i : Nat} (hname : name = operandVar i) (hi : i = 0 ∨ i = 1) :
      (name == resultVar) = false := by
    rcases hi with rfl | rfl
    · rw [hname]; rfl
    · rw [hname]; rfl
  intro name t h
  have hparams := hshape.params
  unfold operandTypes at h
  unfold numericState State.lookup
  rcases hshape.arity with hlen | hlen
  · obtain ⟨p, hp⟩ := List.length_eq_one_iff.mp hlen
    rw [hp] at h hfits hparams
    obtain ⟨d, rfl, hd⟩ := hfits.of_single
    simp only [List.mapIdx_cons, List.mapIdx_nil, List.lookup_cons, List.lookup_nil] at h ⊢
    split at h
    · next heq =>
      cases h
      rw [hvar (by simpa using heq) (.inl rfl)]
      simp only
      exact ⟨d, rfl, (Datum.fits_iff_clean (hparams p (by simp))).mp hd⟩
    · cases h
  · obtain ⟨p, q, hpq⟩ := List.length_eq_two.mp hlen
    rw [hpq] at h hfits hparams
    obtain ⟨as, bs, rfl, has, hbs⟩ : ∃ as bs, ds = as ++ bs ∧ FitsAll l [p] as ∧ FitsAll l [q] bs :=
      FitsAll.of_append hfits
    obtain ⟨d, rfl, hd⟩ := has.of_single
    obtain ⟨d', rfl, hd'⟩ := hbs.of_single
    simp only [List.cons_append, List.nil_append, List.mapIdx_cons, List.mapIdx_nil,
      List.lookup_cons, List.lookup_nil] at h ⊢
    split at h
    · next heq =>
      cases h
      rw [hvar (by simpa using heq) (.inl rfl)]
      simp only
      exact ⟨d, rfl, (Datum.fits_iff_clean (hparams p (by simp))).mp hd⟩
    · next hne =>
      split at h
      · next heq =>
        cases h
        rw [hvar (by simpa using heq) (.inr rfl)]
        simp only
        exact ⟨d', rfl, (Datum.fits_iff_clean (hparams q (by simp))).mp hd'⟩
      · cases h

theorem computed_endsIn {l : Layout} {ty : Ty} {checks : List (Expr × TrapCode)} {value : Expr}
    (hchecks : ∀ c ∈ checks, EndsIn .bool (eval l s c.1) ∧ c.2.isArithmetic = true)
    (hvalue : EndsIn ty (eval l s value)) : EndsIn ty (computed l s checks value) := by
  induction checks with
  | nil => exact hvalue
  | cons check checks ih =>
      obtain ⟨cond, code⟩ := check
      obtain ⟨hcond, hcode⟩ := hchecks (cond, code) List.mem_cons_self
      have hrest := ih fun c hc => hchecks c (List.mem_cons_of_mem _ hc)
      rw [computed, checkAll, bind_assoc]
      refine hcond.bind fun c _ => ?_
      split
      · exact hcode
      · exact hrest

/-- On operands of its types, a numeric instruction gives a value of its type or traps. -/
theorem numericValue_endsIn {l : Layout} {op : NumericOp} (hop : op ∈ NumericOp.table.toList)
    {ds : List Datum} (hfits : FitsAll l op.signature.params ds) :
    EndsIn (Ty.carrier l (op.signature.results.headD .i32))
      (numericValue l (numericState ds) op (operandExprs ds.length)) := by
  have hshape := shape_of_mem hop
  have hlen := hfits.length_eq
  have hargs := evalAll_of_forall₂ (evalAll_operandExprs l (hlen ▸ hshape.arity))
  obtain ⟨r, hr, hknown⟩ := hshape.results
  unfold numericValue
  split
  · next f hf =>
    have hsig := hshape.pair.resolve_left (by rw [hf]; simp)
    rw [hsig] at hlen
    obtain ⟨a, b, rfl⟩ := List.length_eq_two.mp hlen.symm
    rw [hargs, hsig]
    change Datum.Clean .vec2 (pairValue op [a, b])
    rw [pairValue]
    split
    · exact Datum.clean_ofWords rfl
    · exact Datum.clean_ofWords rfl
  · next hf =>
    have htyped := isTypedCode_of_mem l hop hf
    rw [isTypedCode, Bool.and_eq_true, decide_eq_true_eq, List.all_eq_true, hlen] at htyped
    have hresult : (op.signature.results.headD .i32).isKnown = true := by rw [hr]; exact hknown
    have hvars := lookup_operandTypes hshape hfits
    refine computed_endsIn (fun c hc => ?_)
      (eval_endsIn hop hshape.params hresult hvars _ htyped.1)
    have hcheck := htyped.2 c hc
    rw [Bool.and_eq_true, decide_eq_true_eq] at hcheck
    exact ⟨eval_endsIn hop hshape.params hresult hvars _ hcheck.1, hcheck.2⟩

theorem run_of_outcome {α : Type} {x : Exec α} {r : Execution.Ending α}
    (h : Exec.outcome x s = some r) : x.run.run s = r := by
  unfold Exec.outcome Execution.Ending.settle at h
  split at h
  · cases h
  · exact Option.some.inj h

/-- A numeric instruction on its own computes what its code says. -/
theorem numericResult_eq {l : Layout} {op : NumericOp} (hop : op ∈ NumericOp.table.toList)
    {ds : List Datum} (hfits : FitsAll l op.signature.params ds) :
    numericResult l op ds = numericValue l (numericState ds) op (operandExprs ds.length) := by
  have hshape := shape_of_mem hop
  have hlen := hfits.length_eq
  have hargs := evalAll_of_forall₂ (evalAll_operandExprs l (hlen ▸ hshape.arity))
  have hend := numericValue_endsIn hop hfits
  have hpair : ds.length = 2 ∨ pairFunction? op = none := by
    rcases hshape.pair with h | h
    · exact .inr h
    · exact .inl (by rw [← hlen, h]; rfl)
  unfold numericResult
  rw [← operandExprs]
  cases hv : numericValue l (numericState ds) op (operandExprs ds.length) with
  | ok d =>
      have hs : (numericState ds).assign? resultVar d = some { numericState ds with
          vars := (resultVar, d) :: ds.mapIdx fun i d => (operandVar i, d) } := rfl
      have h := outcome_numeric_ok (hasNumeric_numericEnv l) (Nat.le_refl 16) hargs hpair hv hs
      have hrun : (Exec.stmts (numericEnv l) 16 (numericStmts l op (operandExprs ds.length)
          resultVar)).run.run (numericState ds) = _ := run_of_outcome h
      dsimp only
      rw [hrun]
      rfl
  | error e =>
      rw [hv] at hend
      cases e with
      | trap c =>
          have h :=
            @outcome_numeric_trap (numericEnv l) _ _ (Nat.le_refl 16) _ _ _ resultVar _ hargs hv
          have hrun : (Exec.stmts (numericEnv l) 16 (numericStmts l op (operandExprs ds.length)
              resultVar)).run.run (numericState ds) = _ := run_of_outcome h
          dsimp only
          rw [hrun]
      | _ => exact hend.elim

/-! ## Numeric instructions anywhere -/

/-- The end of a numeric instruction: a value that fits, or an arithmetic trap. -/
def NumericEnd (l : Layout) (t : ValueType) : Except Stop Datum → Prop
  | .ok d => d.Fits l t
  | .error (.trap c) => c.isArithmetic = true
  | .error _ => False

theorem numericResult_end {l : Layout} {op : NumericOp} (hop : op ∈ NumericOp.table.toList)
    {t : ValueType} (ht : op.signature.results = [t]) {ds : List Datum}
    (hfits : FitsAll l op.signature.params ds) : NumericEnd l t (numericResult l op ds) := by
  have hend := numericValue_endsIn hop hfits
  rw [← numericResult_eq hop hfits, ht] at hend
  obtain ⟨r, hr, hknown⟩ := (shape_of_mem hop).results
  rw [ht] at hr
  cases hr
  generalize numericResult l op ds = v at hend ⊢
  match v, hend with
  | .ok d, h => exact (Datum.fits_iff_clean hknown).mpr h
  | .error (.trap c), h => exact h

/-- The code of a numeric instruction computes the same wherever it stands. -/
theorem numericValue_eq {l : Layout} {op : NumericOp} (hop : op ∈ NumericOp.table.toList)
    {args : List Expr} {ds : List Datum} (hfits : FitsAll l op.signature.params ds)
    (hargs : List.Forall₂ (fun e d => eval l s e = .ok d) args ds) :
    numericValue l s op args = numericResult l op ds := by
  rw [numericResult_eq hop hfits]
  have hlen := hfits.length_eq
  have hown := evalAll_operandExprs l (hlen ▸ (shape_of_mem hop).arity)
  refine numericValue_congr op ?_
  generalize operandExprs ds.length = args' at hown
  generalize numericState ds = s' at hown
  clear hfits hlen
  induction hargs generalizing args' with
  | nil => cases hown; exact .nil
  | cons hd _ ih =>
      cases hown with
      | cons hd' hrest => exact .cons (hd.trans hd'.symm) (ih _ hrest)

theorem meaning_numeric_ok (henv : HasNumeric env) {op : NumericOp}
    (hop : op ∈ NumericOp.table.toList) {args : List Expr} {ds : List Datum} {dst : String}
    {d : Datum} (hfits : FitsAll env.exe.layout op.signature.params ds)
    (hargs : List.Forall₂ (fun e d => eval env.exe.layout s e = .ok d) args ds)
    (h : numericResult env.exe.layout op ds = .ok d) (hs : s.assign? dst d = some t) :
    meaning env (numericStmts env.exe.layout op args dst) s = some (.ok .next, t) := by
  refine (Exec.limit_eq_some_iff (Exec.growing_stmts env _)).mpr ⟨16, ?_⟩
  have hshape := shape_of_mem hop
  refine outcome_numeric_ok henv (Nat.le_refl 16) (evalAll_of_forall₂ hargs) ?_ ?_ hs
  · rcases hshape.pair with h | h
    · exact .inr h
    · exact .inl (by rw [← hfits.length_eq, h]; rfl)
  · rw [numericValue_eq hop hfits hargs, h]

theorem meaning_numeric_trap {op : NumericOp} (hop : op ∈ NumericOp.table.toList)
    {args : List Expr} {ds : List Datum} {dst : String} {why : TrapCode}
    (hfits : FitsAll env.exe.layout op.signature.params ds)
    (hargs : List.Forall₂ (fun e d => eval env.exe.layout s e = .ok d) args ds)
    (h : numericResult env.exe.layout op ds = .error (.trap why)) :
    meaning env (numericStmts env.exe.layout op args dst) s
      = some (.error (.trap why), s.trapped why) := by
  refine (Exec.limit_eq_some_iff (Exec.growing_stmts env _)).mpr ⟨16, ?_⟩
  refine outcome_numeric_trap (Nat.le_refl 16) (evalAll_of_forall₂ hargs) ?_
  rw [numericValue_eq hop hfits hargs, h]

end WasmShader
