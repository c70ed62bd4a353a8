import WasmShader.Proofs.Abreast
import WasmShader.Proofs.BlockRun

/-!
# Frames on lanes abreast

What the code that moves frames does on two lanes abreast. Words are read from places at which the
stacks agree; words are written to the same places of both, so there they agree afterwards
(`getElem?_written`), and elsewhere nothing has changed. Nothing is asked of where the region of the
lane is: what falls outside of it stops both runs.

A height is the number of words from the start of the region on, those of the header included. The
stack pointer counts the words behind the header.
-/

namespace WasmShader.Execution

open Shader (Expr Stmt AllApart StmtsApart)
open Emit (baseNames stackBuffer spVar headerBase dataBase)

/-! ## Words written one after the other -/

/-- The array with words written to places, one after the other. -/
def written (ws : Array UInt32) (cells : List (Nat × UInt32)) : Array UInt32 :=
  cells.foldl (fun ws c => ws.setIfInBounds c.1 c.2) ws

section Written

variable {ws us : Array UInt32} {cells more : List (Nat × UInt32)} {i : Nat}

theorem written_cons (ws : Array UInt32) (c : Nat × UInt32) (cells : List (Nat × UInt32)) :
    written ws (c :: cells) = written (ws.setIfInBounds c.1 c.2) cells := rfl

@[simp] theorem size_written (ws : Array UInt32) (cells : List (Nat × UInt32)) :
    (written ws cells).size = ws.size := by
  induction cells generalizing ws with
  | nil => rfl
  | cons c cells ih => rw [written_cons, ih, Array.size_setIfInBounds]

/-- Other places keep their words. -/
theorem getElem?_written_of_not_mem (h : i ∉ cells.map (·.1)) : (written ws cells)[i]? = ws[i]? := by
  induction cells generalizing ws with
  | nil => rfl
  | cons c cells ih =>
      rw [List.map_cons, List.mem_cons, not_or] at h
      rw [written_cons, ih h.2, Array.getElem?_setIfInBounds_ne (Ne.symm h.1)]

/-- Where words were written to both arrays, or the same words were before, the same words are. -/
theorem getElem?_written (hsize : us.size = ws.size)
    (h : i ∈ cells.map (·.1) ∨ us[i]? = ws[i]?) : (written us cells)[i]? = (written ws cells)[i]? := by
  induction cells generalizing ws us with
  | nil => exact h.resolve_left List.not_mem_nil
  | cons c cells ih =>
      refine ih (by simp only [Array.size_setIfInBounds, hsize]) ?_
      by_cases hc : c.1 = i
      · refine .inr ?_
        simp only [Array.getElem?_setIfInBounds, hc, hsize, if_true]
      · rw [List.map_cons, List.mem_cons, or_assoc] at h
        rcases h with h | h | h
        · exact absurd h.symm hc
        · exact .inl h
        · refine .inr ?_
          rw [Array.getElem?_setIfInBounds_ne hc, Array.getElem?_setIfInBounds_ne hc, h]

end Written

/-- The state with words written to the stack. -/
def State.written (s : State) (cells : List (Nat × UInt32)) : State :=
  s.withWords .stack (Execution.written s.lane.stack.words cells)

/-! ## Places on the stack -/

section Places

variable {d : Pair} {s t : State} {l : Layout} {H : Nat} {o : UInt32}

theorem Anchored.base (h : Anchored d s) : s.lane.base .stack = d.base d.index .stack := by
  rw [Lane.base, h.index, show (s.lane.words .stack).size = d.size .stack from h.size, Pair.base]

theorem Anchored.lookup_base (h : Anchored d s) {name : String} (hname : name ∈ baseNames)
    {v : Datum} (hv : (d.bases d.index).lookup name = some v) :
    Execution.eval l s (.var name) = .ok v := by
  rw [Execution.eval]
  refine State.lookup_of_privates (lookup_eq_none fun x hx heq => h.clear x hx (heq ▸ hname)) ?_
  rw [h.bases, hv]

theorem Anchored.eval_header (h : Anchored d s) :
    Execution.eval l s (.var headerBase) = .ok (.ofU32 (d.base d.index .stack + 0)) := by
  rw [UInt32.add_zero]
  exact h.lookup_base (by decide) rfl

/-- A word of the stack is in the region. -/
theorem Anchored.of_locate (h : Anchored d s) (hsize : d.size .stack < 2 ^ 32) {r : Region} {i : Nat}
    (hat : s.lane.locate stackBuffer (d.base d.index .stack + o) = .ok (r, i)) :
    r = .stack ∧ i = o.toNat ∧ o.toNat < d.size .stack := by
  rw [← h.base, Lane.locate_at (r := .stack) rfl] at hat
  split at hat
  · cases hat
  · next hout =>
    cases hat
    have hin := (not_or.mp hout).2
    rw [show (s.lane.words .stack).size = d.size .stack from h.size, UInt32.le_iff_toNat_le,
      toNat_toUInt32 hsize] at hin
    exact ⟨rfl, rfl, Nat.lt_of_not_le hin⟩

/-- A word that is read from the stack is that of the region. -/
theorem Anchored.of_load (h : Anchored d s) (hsize : d.size .stack < 2 ^ 32) {place : Expr} {v : Datum}
    (hat : Execution.eval l s place = .ok (.ofU32 (d.base d.index .stack + o)))
    (hv : Execution.eval l s (.load stackBuffer place) = .ok v) :
    o.toNat < d.size .stack ∧ v = .ofU32 (s.lane.stack.words.getD o.toNat 0) := by
  rw [Execution.eval, hat] at hv
  change s.load stackBuffer (d.base d.index .stack + o) = _ at hv
  rw [State.load] at hv
  cases hlocate : s.lane.locate stackBuffer (d.base d.index .stack + o) with
  | error e =>
      rw [hlocate] at hv
      cases hv
  | ok place =>
      obtain ⟨r, i⟩ := place
      obtain ⟨rfl, rfl, hlt⟩ := h.of_locate hsize hlocate
      rw [hlocate] at hv
      cases hv
      exact ⟨hlt, rfl⟩

/-- The stack pointer is at a height. -/
structure At (d : Pair) (H : Nat) (s : State) : Prop extends Anchored d s where
  sp : s.vars.lookup spVar = some (.ofU32 (H.toUInt32 - 2))

theorem At.eval_sp (h : At d H s) : Execution.eval l s (.var spVar) = .ok (.ofU32 (H.toUInt32 - 2)) :=
  State.lookup_of_vars h.sp

theorem At.eval_top (h : At d H s) : Execution.eval l s (.binary .add (.var dataBase) (.var spVar))
    = .ok (.ofU32 (d.base d.index .stack + H.toUInt32)) := by
  have hdata : Execution.eval l s (.var dataBase) = .ok (.ofU32 (d.base d.index .stack + 2)) :=
    h.lookup_base (by decide) rfl
  have hsum : d.base d.index .stack + 2 + (H.toUInt32 - 2) = d.base d.index .stack + H.toUInt32 := by
    grind
  rw [← hsum]
  exact eval_sum hdata h.eval_sp

theorem At.eval_dataAt (h : At d H s) (k : Nat) : Execution.eval l s (Emit.dataAt k.toUInt32)
    = .ok (.ofU32 (d.base d.index .stack + (H.toUInt32 + k.toUInt32))) := by
  rw [← UInt32.add_assoc]
  exact eval_offset h.eval_top _

theorem eval_less {e : Expr} {v : UInt32} (h : Execution.eval l s e = .ok (.ofU32 v)) (n : Nat) :
    Execution.eval l s (.binary .sub e (.count n)) = .ok (.ofU32 (v - n.toUInt32)) := by
  rw [Execution.eval, h]
  rfl

theorem At.eval_resultWord (h : At d H s) (room k : Nat) :
    Execution.eval l s (Emit.BlockContext.resultWord room 0 k)
      = .ok (.ofU32 (d.base d.index .stack + (H.toUInt32 - (1 + room).toUInt32 + k.toUInt32))) := by
  have hsub : Execution.eval l s (.binary .sub (.binary .add (.var dataBase) (.var spVar))
      (.count (1 + room))) = .ok (.ofU32 (d.base d.index .stack
        + (H.toUInt32 - (1 + room).toUInt32))) := by
    rw [add_sub]
    exact eval_less h.eval_top _
  rw [← UInt32.add_assoc, Emit.BlockContext.resultWord, Nat.zero_add]
  exact eval_offset hsub _

/-- A word is read from a place where the stacks agree. -/
theorem Abreast.eval_load (h : Abreast s t) (hs : Anchored d s) (hsize : d.size .stack < 2 ^ 32)
    {place : Expr} (hplace : place.Apart)
    (hat : Execution.eval l s place = .ok (.ofU32 (d.base d.index .stack + o)))
    (hword : t.lane.stack.words[o.toNat]? = s.lane.stack.words[o.toNat]?) :
    Execution.eval l t (.load stackBuffer place) = Execution.eval l s (.load stackBuffer place) := by
  have hload : t.load stackBuffer (d.base d.index .stack + o)
      = s.load stackBuffer (d.base d.index .stack + o) := by
    rw [State.load, State.load, h.lanes.locate]
    cases hlocate : s.lane.locate stackBuffer (d.base d.index .stack + o) with
    | error e => rfl
    | ok place =>
        obtain ⟨r, i⟩ := place
        obtain ⟨rfl, rfl, -⟩ := hs.of_locate hsize hlocate
        change Except.ok (Datum.ofU32 (t.lane.stack.words.getD _ 0))
          = Except.ok (Datum.ofU32 (s.lane.stack.words.getD _ 0))
        rw [Array.getD_eq_getD_getElem?, Array.getD_eq_getD_getElem?, hword]
  simp only [Execution.eval, h.offStack.eval l place hplace, hat]
  exact hload

theorem evalAll_congr {es : List Expr}
    (h : ∀ e ∈ es, Execution.eval l t e = Execution.eval l s e) :
    Execution.evalAll l t es = Execution.evalAll l s es := by
  induction es with
  | nil => rw [Execution.evalAll, Execution.evalAll]
  | cons e es ih =>
      obtain ⟨he, hes⟩ := List.forall_mem_cons.mp h
      simp only [Execution.evalAll, he, ih hes]

theorem eval_bitcast_congr {e : Expr} (ty : Shader.Ty)
    (h : Execution.eval l t e = Execution.eval l s e) :
    Execution.eval l t (.bitcast ty e) = Execution.eval l s (.bitcast ty e) := by
  rw [Execution.eval, Execution.eval, h]

theorem eval_compose_congr {es : List Expr} (ty : Shader.Ty)
    (h : Execution.evalAll l t es = Execution.evalAll l s es) :
    Execution.eval l t (.compose ty es) = Execution.eval l s (.compose ty es) := by
  rw [Execution.eval, Execution.eval, h]

/-- A value is read alike if its words are. -/
theorem eval_loadValue_congr {buffer : String} {place : Nat → Expr} {u : ValueType}
    (hu : u.isKnown = true) (h : ∀ k < l.words u, Execution.eval l t (.load buffer (place k))
      = Execution.eval l s (.load buffer (place k))) :
    Execution.eval l t (Emit.loadValue l buffer place u)
      = Execution.eval l s (Emit.loadValue l buffer place u) := by
  have hcompose (ty : Shader.Ty) {n : Nat} (hn : n ≤ l.words u) :
      Execution.eval l t (.compose ty ((List.range n).map fun k => .load buffer (place k)))
        = Execution.eval l s (.compose ty ((List.range n).map fun k => .load buffer (place k))) := by
    refine eval_compose_congr ty (evalAll_congr fun e he => ?_)
    obtain ⟨k, hk, rfl⟩ := List.mem_map.mp he
    exact h k (Nat.lt_of_lt_of_le (List.mem_range.mp hk) hn)
  cases u with
  | reserved _ => cases hu
  | i32 => exact h 0 Nat.one_pos
  | f32 => exact eval_bitcast_congr .f32 (h 0 Nat.one_pos)
  | i64 => exact hcompose .vec2 (Nat.le_refl 2)
  | v128 => exact hcompose .vec4 (Nat.le_refl 4)
  | f64 =>
      cases hnative : l.nativeF64 with
      | false =>
          have hc : Shader.Ty.carrier l .f64 = .vec3 := by rw [Shader.Ty.carrier, hnative]; rfl
          rw [Emit.loadValue, hc]
          exact hcompose .vec3 (by rw [Layout.words, hnative]; decide)
      | true =>
          have hc : Shader.Ty.carrier l .f64 = .f64 := by rw [Shader.Ty.carrier, hnative]; rfl
          rw [Emit.loadValue, hc]
          exact eval_bitcast_congr .f64
            (hcompose .vec2 (n := 2) (by rw [Layout.words, hnative]; decide))

end Places

/-! ## Code on two lanes abreast -/

section Code

open Exec

variable {env : Env} {xs ys : List Stmt} {P R : State → State → Prop}
  {Q Q' : Flow → State → State → Prop}

/-- From states as described, the code does the same on both lanes, with any fuel, and leads to states
as described. -/
def Leads (env : Env) (code : List Stmt) (P : State → State → Prop)
    (Q : Flow → State → State → Prop) : Prop :=
  ∀ n s t, P s t → Together Q (outcome (stmts env n code) s) (outcome (stmts env n code) t)

/-- The same of a single statement. -/
def StmtLeads (env : Env) (st : Stmt) (P : State → State → Prop)
    (Q : Flow → State → State → Prop) : Prop :=
  ∀ n s t, P s t → Together Q (outcome (stmt env n st) s) (outcome (stmt env n st) t)

/-- What comes next is run, from states as described. -/
def Onto (R : State → State → Prop) (flow : Flow) (s t : State) : Prop := flow = .next ∧ R s t

theorem outcome_stmts_append (n : Nat) (xs ys : List Stmt) (s : State) :
    outcome (stmts env n (xs ++ ys)) s = (outcome (stmts env n xs) s).bind
      (andThen (onNext (outcome (stmts env (n - xs.length) ys)))) := by
  induction xs generalizing n s with
  | nil =>
      cases n with
      | zero => rw [List.nil_append, stmts_zero, stmts_zero]; rfl
      | succ n => rfl
  | cons st xs ih =>
      cases n with
      | zero => rw [List.cons_append, stmts_zero, stmts_zero]; rfl
      | succ n =>
          rw [List.cons_append, outcome_stmts_cons, outcome_stmts_cons, Option.bind_assoc]
          congr 1
          funext r
          obtain ⟨r, s'⟩ := r
          cases r with
          | error e => rfl
          | ok flow =>
              cases flow with
              | next =>
                  rw [List.length_cons, Nat.add_sub_add_right]
                  exact ih n s'
              | leave | again | ret => rfl

namespace Leads

theorem mono {P' : State → State → Prop} (h : Leads env xs P Q) (hP : ∀ s t, P' s t → P s t)
    (hQ : ∀ flow s t, Q flow s t → Q' flow s t) : Leads env xs P' Q' :=
  fun n s t hs => (h n s t (hP s t hs)).mono hQ

theorem nil : Leads env [] P (Onto P) := by
  intro n s t h
  cases n with
  | zero => rw [stmts_zero]; exact .none
  | succ n => exact .some (.value ⟨rfl, h⟩)

theorem onNext (hy : Leads env ys (Q .next) Q') (hother : ∀ flow s t, flow ≠ .next → Q flow s t →
    Q' flow s t) {x y : Option (Ending Flow)} (h : Together Q x y) (n : Nat) :
    Together Q' (x.bind (andThen (Execution.onNext (outcome (stmts env n ys)))))
      (y.bind (andThen (Execution.onNext (outcome (stmts env n ys))))) := by
  refine h.andThen fun flow s t hflow => ?_
  cases flow with
  | next => exact hy n s t hflow
  | leave | again | ret => exact .some (.value (hother _ s t nofun hflow))

theorem append (hx : Leads env xs P Q) (hy : Leads env ys (Q .next) Q')
    (hother : ∀ flow s t, flow ≠ .next → Q flow s t → Q' flow s t) :
    Leads env (xs ++ ys) P Q' := by
  intro n s t h
  rw [outcome_stmts_append, outcome_stmts_append]
  exact onNext hy hother (hx n s t h) _

theorem cons {st : Stmt} (hst : StmtLeads env st P Q) (hy : Leads env ys (Q .next) Q')
    (hother : ∀ flow s t, flow ≠ .next → Q flow s t → Q' flow s t) :
    Leads env (st :: ys) P Q' := by
  intro n s t h
  cases n with
  | zero => rw [stmts_zero]; exact .none
  | succ n =>
      rw [outcome_stmts_cons, outcome_stmts_cons]
      exact onNext hy hother (hst n s t h) n

theorem append_next (hx : Leads env xs P (Onto R)) (hy : Leads env ys R Q) :
    Leads env (xs ++ ys) P Q :=
  hx.append (hy.mono (fun _ _ h => h.2) fun _ _ _ => id) fun _ _ _ hne h => absurd h.1 hne

theorem cons_next {st : Stmt} (hst : StmtLeads env st P (Onto R)) (hy : Leads env ys R Q) :
    Leads env (st :: ys) P Q :=
  .cons hst (hy.mono (fun _ _ h => h.2) fun _ _ _ => id) fun _ _ _ hne h => absurd h.1 hne

theorem singleton {st : Stmt} (hst : StmtLeads env st P (Onto R)) : Leads env [st] P (Onto R) :=
  .cons_next hst .nil

theorem of_exists {ι : Type} {P : ι → State → State → Prop} (h : ∀ i, Leads env xs (P i) Q) :
    Leads env xs (fun s t => ∃ i, P i s t) Q :=
  fun n s t ⟨i, hi⟩ => h i n s t hi

theorem of_and {p : Prop} (h : p → Leads env xs P Q) : Leads env xs (fun s t => p ∧ P s t) Q :=
  fun n s t hs => h hs.1 n s t hs.2

end Leads

theorem StmtLeads.of_succ {st : Stmt} (h : ∀ n s t, P s t → Together Q
    (outcome (stmt env (n + 1) st) s) (outcome (stmt env (n + 1) st) t)) : StmtLeads env st P Q := by
  intro n s t hs
  cases n with
  | zero => rw [stmt]; exact .none
  | succ n => exact h n s t hs

/-- A value that is the same on both lanes decides which way both go. -/
theorem StmtLeads.ifElse {cond : Expr} (hP : ∀ s t, P s t → Abreast s t ∧
      Execution.eval env.exe.layout t cond = Execution.eval env.exe.layout s cond)
    (hx : Leads env xs (fun s t => P s t
      ∧ ∃ c, Execution.eval env.exe.layout s cond = .ok c ∧ c.truth = true) Q)
    (hy : Leads env ys (fun s t => P s t
      ∧ ∃ c, Execution.eval env.exe.layout s cond = .ok c ∧ c.truth = false) Q) :
    StmtLeads env (.ifElse cond xs ys) P Q := by
  refine .of_succ fun n s t h => ?_
  obtain ⟨habreast, hcond⟩ := hP s t h
  rw [stmt]
  refine (habreast.offStack.value env hcond).bind ?_
  rintro c s t ⟨hc, rfl, rfl⟩
  split
  · next htrue => exact hx n s t ⟨h, c, hc, htrue⟩
  · next hfalse => exact hy n s t ⟨h, c, hc, Bool.eq_false_iff.mpr hfalse⟩

theorem StmtLeads.switch {selector : Expr} {cases : List Shader.Case}
    (hP : ∀ s t, P s t → Abreast s t ∧
      Execution.eval env.exe.layout t selector = Execution.eval env.exe.layout s selector)
    (hcases : ∀ c ∈ cases, Leads env c.body (fun s t => P s t
      ∧ ∃ v, Execution.eval env.exe.layout s selector = .ok v ∧ v.x ∈ c.values) Q)
    (hy : Leads env ys P Q) : StmtLeads env (.switch selector cases ys) P Q := by
  refine .of_succ fun n s t h => ?_
  obtain ⟨habreast, hselector⟩ := hP s t h
  rw [stmt]
  refine (habreast.offStack.value env hselector).bind ?_
  rintro v s t ⟨hv, rfl, rfl⟩
  split
  · next c hc =>
    have hvalues := List.find?_some hc
    exact hcases c (List.mem_of_find?_eq_some hc) n s t
      ⟨h, v, hv, List.contains_iff_mem.mp hvalues⟩
  · exact hy n s t h

theorem StmtLeads.trap {code : UInt32} (hP : ∀ s t, P s t → Abreast s t) :
    StmtLeads env (.trap code) P Q :=
  .of_succ fun _ s t h => .some (.stop ((hP s t h).offStack.trapped ⟨code⟩).lanes)

end Code

/-! ## Words read and written -/

/-- The regions have been found on lanes abreast with stacks of the given words. -/
structure Found (d : Pair) (a b : Array UInt32) (s t : State) : Prop
    extends Abreast s t, Anchored d s where
  own : s.lane.stack.words = a
  other : t.lane.stack.words = b

/-- The stack pointer is at a height. -/
structure Level (d : Pair) (H : Nat) (a b : Array UInt32) (s t : State) : Prop
    extends Found d a b s t where
  sp : s.vars.lookup spVar = some (.ofU32 (H.toUInt32 - 2))

section Words

open Exec

variable {env : Env} {d : Pair} {H : Nat} {a b : Array UInt32} {s t : State} {o x : UInt32}

theorem Level.at (h : Level d H a b s t) : At d H s := ⟨h.toAnchored, h.sp⟩

theorem Found.size_own (h : Found d a b s t) : a.size = d.size .stack := h.own ▸ h.size

theorem Found.size_other (h : Found d a b s t) : b.size = d.size .stack := by
  rw [← h.other, h.lanes.size, h.size]

theorem Found.withVars (h : Found d a b s t) {vars : Vars}
    (hclear : ∀ v ∈ vars, v.1 ∉ baseNames) : Found d a b { s with vars } { t with vars } :=
  ⟨h.toAbreast.withVars vars, h.toAnchored.withVars hclear, h.own, h.other⟩

/-- Code that leaves the stack alone changes neither the stacks nor the stack pointer. -/
theorem Found.steady {α : Type} {code : Exec α} (hcode : Steady d ⟨a⟩ ⟨b⟩ code)
    (h : Found d a b s t) :
    Together (fun _ s' t' => Found d a b s' t' ∧ s'.vars.lookup spVar = s.vars.lookup spVar)
      (outcome code s) (outcome code t) :=
  (hcode _ s t ⟨h.toAbreast, h.toAnchored, congrArg LaneStack.mk h.own,
    congrArg LaneStack.mk h.other, rfl⟩).mono fun _ _ _ h' =>
      ⟨⟨h'.toAbreast, h'.toAnchored, congrArg LaneStack.words h'.own,
        congrArg LaneStack.words h'.other⟩, h'.sp⟩

theorem Level.steady {α : Type} {code : Exec α} (hcode : Steady d ⟨a⟩ ⟨b⟩ code)
    (h : Level d H a b s t) :
    Together (fun _ => Level d H a b) (outcome code s) (outcome code t) :=
  (h.toFound.steady hcode).mono fun _ _ _ h' => ⟨h'.1, h'.2.trans h.sp⟩

theorem Found.assign (h : Found d a b s t) {name : String} (hname : name ∉ baseNames) {e : Expr}
    (he : Execution.eval env.exe.layout t e = Execution.eval env.exe.layout s e) (n : Nat) :
    Together (Onto fun s' t' => Found d a b s' t' ∧ ∃ v, Execution.eval env.exe.layout s e = .ok v
        ∧ ∀ m, s'.vars.lookup m = if m = name then some v else s.vars.lookup m)
      (outcome (stmt env (n + 1) (.assign name e)) s)
      (outcome (stmt env (n + 1) (.assign name e)) t) := by
  rw [stmt]
  refine (h.offStack.value env he).bind ?_
  rintro v s t ⟨hv, rfl, rfl⟩
  refine (h.toAbreast.assign h.toAnchored hname v).bind ?_
  rintro _ _ _ ⟨vars, hset, rfl, rfl⟩
  exact .some (.value ⟨rfl, h.withVars (clear_set hset h.clear), v, hv,
    fun m => Vars.lookup_set? hset m⟩)

/-- The variable with the stack pointer gets the value for another height. -/
theorem StmtLeads.assign_sp {P : State → State → Prop} {e : Expr}
    (hP : ∀ s t, P s t → Found d a b s t
      ∧ (∀ v, Execution.eval env.exe.layout s e = .ok v → v = .ofU32 (H.toUInt32 - 2))
      ∧ Execution.eval env.exe.layout t e = Execution.eval env.exe.layout s e) :
    StmtLeads env (.assign spVar e) P (Onto (Level d H a b)) := by
  refine .of_succ fun n s t hs => ?_
  obtain ⟨hfound, heval, he⟩ := hP s t hs
  refine (hfound.assign (by decide) he n).mono ?_
  rintro flow s' t' ⟨rfl, hfound', v, hv, hvars⟩
  refine ⟨rfl, hfound', ?_⟩
  rw [hvars, if_pos rfl, heval v hv]

/-- Another variable than that with the stack pointer. -/
theorem StmtLeads.assign_work {name : String} (hname : name ∉ baseNames) (hsp : name ≠ spVar)
    {e : Expr} (he : ∀ s t, Level d H a b s t →
      Execution.eval env.exe.layout t e = Execution.eval env.exe.layout s e) :
    StmtLeads env (.assign name e) (Level d H a b) (Onto (Level d H a b)) := by
  refine .of_succ fun n s t hs => (hs.toFound.assign hname (he s t hs) n).mono ?_
  rintro flow s' t' ⟨rfl, hfound, v, -, hvars⟩
  refine ⟨rfl, hfound, ?_⟩
  rw [hvars, if_neg (Ne.symm hsp), hs.sp]

/-- The stack pointer is read from the header. -/
theorem readSp_leads (hheader : a[0]? = some (H.toUInt32 - 2)) (hsize : d.size .stack < 2 ^ 32) :
    StmtLeads env Emit.readSp (Found d a b) (Onto (Level d H a b)) := by
  refine .assign_sp fun s t hs => ?_
  have hplace := hs.toAnchored.eval_header (l := env.exe.layout)
  refine ⟨hs, fun v hv => ?_, hs.toAbreast.eval_load hs.toAnchored hsize (Emit.apart_var _) hplace
    (hs.lanes.header 0 (by decide))⟩
  obtain ⟨-, rfl⟩ := hs.toAnchored.of_load hsize hplace hv
  rw [Array.getD_eq_getD_getElem?, hs.own, show ((0 : UInt32).toNat) = 0 from rfl, hheader,
    Option.getD_some]

/-- The stack pointer is moved by as many words. -/
theorem raiseSp_leads (n : Nat) :
    StmtLeads env (Emit.raiseSp n) (Level d H a b) (Onto (Level d (H + n) a b)) := by
  refine .assign_sp fun s t hs => ⟨hs.toFound, fun v hv => ?_, ?_⟩
  · rw [eval_sum hs.at.eval_sp (y := n.toUInt32) (by rw [Expr.count, Expr.u32, eval]; rfl)] at hv
    cases hv
    rw [Emit.toUInt32_add]
    congr 1
    grind
  · refine hs.offStack.eval env.exe.layout _ ?_
    simp only [Expr.Apart, Expr.count, Expr.u32, and_self]

theorem lowerSp_leads (n : Nat) :
    StmtLeads env (Emit.lowerSp n) (Level d (H + n) a b) (Onto (Level d H a b)) := by
  refine .assign_sp fun s t hs => ⟨hs.toFound, fun v hv => ?_, ?_⟩
  · rw [eval_less hs.at.eval_sp] at hv
    cases hv
    rw [Emit.toUInt32_add]
    congr 1
    grind
  · refine hs.offStack.eval env.exe.layout _ ?_
    simp only [Expr.Apart, Expr.count, Expr.u32, and_self]

/-! ## Words written -/

/-- The stores of expressions to places. -/
def storesAt (place : Nat → Expr) (cs : List (Nat × Expr)) : List Stmt :=
  cs.map fun c => .store stackBuffer (place c.1) c.2

/-- What a store to a place behind `x` writes: a word, at that place of the region. -/
structure Cell (d : Pair) (x : UInt32) (c : Nat × Expr) (cell : Nat × UInt32) : Prop where
  place : cell.1 = (x + c.1.toUInt32).toNat
  within : cell.1 < d.size .stack
  word : ∀ w, c.2 = .u32 w → cell.2 = w

/-- The places are those behind `x`, wherever the words are that have been written already. -/
structure Behind (l : Layout) (d : Pair) (H : Nat) (x : UInt32) (place : Nat → Expr) : Prop where
  apart : ∀ k, (place k).Apart
  eval : ∀ s k, At d H s → Execution.eval l s (place k)
    = .ok (.ofU32 (d.base d.index .stack + (x + k.toUInt32)))

theorem behind_dataAt (l : Layout) (d : Pair) (H : Nat) :
    Behind l d H H.toUInt32 fun k => Emit.dataAt k.toUInt32 :=
  ⟨fun _ => Emit.apart_dataAt _, fun _ k h => h.eval_dataAt k⟩

theorem behind_resultWord (l : Layout) (d : Pair) (H room : Nat) :
    Behind l d H (H.toUInt32 - (1 + room).toUInt32) (Emit.BlockContext.resultWord room 0) :=
  ⟨fun _ => Emit.apart_offset (by simp only [Expr.Apart, Expr.count, Expr.u32, and_self]) _,
    fun _ k h => h.eval_resultWord room k⟩

/-- A word is written to the same place of both stacks. -/
theorem Level.store (h : Level d H a b s t) (hsize : d.size .stack < 2 ^ 32) {place e : Expr}
    (hplace : place.Apart) (he : e.Apart)
    (hat : Execution.eval env.exe.layout s place = .ok (.ofU32 (d.base d.index .stack + o)))
    (n : Nat) :
    Together (Onto fun s' t' => ∃ v, Execution.eval env.exe.layout s e = .ok v
        ∧ o.toNat < d.size .stack
        ∧ Level d H (written a [(o.toNat, v.x)]) (written b [(o.toNat, v.x)]) s' t')
      (outcome (stmt env (n + 1) (.store stackBuffer place e)) s)
      (outcome (stmt env (n + 1) (.store stackBuffer place e)) t) := by
  rw [stmt]
  refine (h.offStack.value env (h.offStack.eval _ place hplace)).bind ?_
  rintro i s t ⟨hi, rfl, rfl⟩
  rw [hat] at hi
  cases hi
  refine (h.offStack.value env (h.offStack.eval _ e he)).bind ?_
  rintro v s t ⟨hv, rfl, rfl⟩
  refine (h.offStack.store stackBuffer _ v.x).bind ?_
  rintro _ _ _ ⟨r, i, hlocate, rfl, rfl⟩
  obtain ⟨rfl, rfl, hlt⟩ := h.toAnchored.of_locate hsize hlocate
  refine .some (.value ⟨rfl, v, hv, hlt, ?_⟩)
  exact
    { lanes := h.lanes.setWord .stack _ v.x
      vars := h.vars
      privates := h.privates
      index := h.index
      size := (Array.size_setIfInBounds ..).trans h.size
      bases := h.bases
      clear := h.clear
      own := congrArg (Array.setIfInBounds · _ v.x) h.own
      other := congrArg (Array.setIfInBounds · _ v.x) h.other
      sp := h.sp }

/-- Words are written to the same places of both stacks. -/
theorem storesAt_leads (hsize : d.size .stack < 2 ^ 32) {place : Nat → Expr} {x : UInt32}
    (hplace : Behind env.exe.layout d H x place) {cs : List (Nat × Expr)}
    (hcs : ∀ c ∈ cs, c.2.Apart) :
    Leads env (storesAt place cs) (Level d H a b) (Onto fun s t => ∃ cells,
      List.Forall₂ (Cell d x) cs cells ∧ Level d H (written a cells) (written b cells) s t) := by
  induction cs generalizing a b with
  | nil => exact Leads.nil.mono (fun _ _ => id) fun _ _ _ h => ⟨h.1, [], .nil, h.2⟩
  | cons c cs ih =>
      obtain ⟨hc, hcs⟩ := List.forall_mem_cons.mp hcs
      have hstore : StmtLeads env (.store stackBuffer (place c.1) c.2) (Level d H a b)
          (Onto fun s t => ∃ cell, Cell d x c cell
            ∧ Level d H (written a [cell]) (written b [cell]) s t) := by
        refine .of_succ fun n s t h => ?_
        refine (h.store hsize (hplace.apart c.1) hc (hplace.eval s c.1 h.at) n).mono ?_
        rintro flow s' t' ⟨rfl, v, hv, hlt, h'⟩
        refine ⟨rfl, _, ⟨rfl, hlt, fun w hw => ?_⟩, h'⟩
        rw [hw, Expr.u32, Execution.eval] at hv
        cases hv
        rfl
      refine .cons_next hstore (.of_exists fun cell => .of_and fun hcell => ?_)
      refine (ih hcs).mono (fun _ _ => id) ?_
      rintro flow s t ⟨rfl, cells, hcells, h⟩
      exact ⟨rfl, cell :: cells, .cons hcell hcells, h⟩

/-- The stack pointer is written back to the header. -/
theorem writeSp_leads (hsize : d.size .stack < 2 ^ 32) :
    StmtLeads env Emit.writeSp (Level d H a b) (Onto (Level d H
      (written a [(0, H.toUInt32 - 2)]) (written b [(0, H.toUInt32 - 2)]))) := by
  refine .of_succ fun n s t h => ?_
  refine (h.store hsize (Emit.apart_var _) (Emit.apart_var _) h.toAnchored.eval_header n).mono ?_
  rintro flow s' t' ⟨rfl, v, hv, -, h'⟩
  rw [h.at.eval_sp] at hv
  cases hv
  exact ⟨rfl, h'⟩

/-- The statements write words of the stack, to places behind one. -/
structure Lays (place : Nat → Expr) (code : List Stmt) (cs : List (Nat × Expr)) : Prop where
  code : code = storesAt place cs
  apart : ∀ c ∈ cs, c.2.Apart

theorem Lays.nil (place : Nat → Expr) : Lays place [] [] := ⟨rfl, List.forall_mem_nil _⟩

theorem Lays.append {place : Nat → Expr} {xs ys : List Stmt} {cs ds : List (Nat × Expr)}
    (hx : Lays place xs cs) (hy : Lays place ys ds) : Lays place (xs ++ ys) (cs ++ ds) :=
  ⟨by rw [hx.code, hy.code, storesAt, storesAt, storesAt, List.map_append],
    List.forall_mem_append.mpr ⟨hx.apart, hy.apart⟩⟩

/-- A value is written to as many places as it has words. -/
theorem storeValue_lays (l : Layout) (places place : Nat → Expr) (off : Nat)
    (hplaces : ∀ k, places k = place (off + k)) {v : Expr} (hv : v.Apart) {u : ValueType}
    (hu : u.isKnown = true) :
    ∃ cs, Lays place (Emit.storeValue l stackBuffer places v u) cs
      ∧ cs.map (·.1) = List.range' off (l.words u) := by
  have hparts (n : Nat) (part : Nat → Expr) (hpart : ∀ k, (part k).Apart) :
      ∃ cs, Lays place ((List.range n).map fun k => .store stackBuffer (places k) (part k)) cs
        ∧ cs.map (·.1) = List.range' off n := by
    refine ⟨(List.range n).map fun k => (off + k, part k), ⟨?_, fun c hc => ?_⟩, ?_⟩
    · rw [storesAt, List.map_map]
      exact List.map_congr_left fun k _ => by rw [hplaces]; rfl
    · obtain ⟨k, -, rfl⟩ := List.mem_map.mp hc
      exact hpart k
    · rw [List.map_map, List.range'_eq_map_range]
      rfl
  have hextract (x : Expr) (hx : x.Apart) (k : Nat) : (Expr.extract x (k : Int)).Apart := by
    rw [Expr.Apart]
    exact hx
  have hbits (ty : Shader.Ty) : (Expr.bitcast ty v).Apart := by
    rw [Expr.Apart]
    exact hv
  cases u with
  | reserved _ => cases hu
  | i32 => exact hparts 1 (fun _ => v) fun _ => hv
  | f32 => exact hparts 1 (fun _ => .bitcast .u32 v) fun _ => hbits _
  | i64 => exact hparts 2 (fun k => .extract v k) (hextract v hv)
  | v128 => exact hparts 4 (fun k => .extract v k) (hextract v hv)
  | f64 =>
      cases hnative : l.nativeF64 with
      | false =>
          have hw : l.words .f64 = 3 := by rw [Layout.words, hnative]; rfl
          have hc : Shader.Ty.carrier l .f64 = .vec3 := by rw [Shader.Ty.carrier, hnative]; rfl
          rw [Emit.storeValue, hc, hw]
          exact hparts 3 (fun k => .extract v k) (hextract v hv)
      | true =>
          have hw : l.words .f64 = 2 := by rw [Layout.words, hnative]; rfl
          have hc : Shader.Ty.carrier l .f64 = .f64 := by rw [Shader.Ty.carrier, hnative]; rfl
          rw [Emit.storeValue, hc, hw]
          exact hparts 2 (fun k => .extract (.bitcast .vec2 v) k) (hextract _ (hbits _))

/-! ## Frames pushed and popped -/

/-- Words above the stack pointer. -/
abbrev above (k : Nat) : Expr := Emit.dataAt k.toUInt32

theorem Lays.values {l : Layout} {p : Emit.Push} {cs : List (Nat × Expr)}
    (h : Lays above p.stmts cs) (vs : List (ValueType × Expr))
    (hvs : ∀ v ∈ vs, v.1.isKnown = true ∧ v.2.Apart) :
    ∃ more, Lays above (vs.foldl (fun p (u, v) => p.value l v u) p).stmts (cs ++ more)
      ∧ more.map (·.1) = List.range' p.size (l.sizeOf (vs.map (·.1)))
      ∧ (vs.foldl (fun p (u, v) => p.value l v u) p).size = p.size + l.sizeOf (vs.map (·.1)) := by
  induction vs generalizing p cs with
  | nil => exact ⟨[], by rw [List.append_nil]; exact h, rfl, rfl⟩
  | cons v vs ih =>
      obtain ⟨⟨hknown, hapart⟩, hvs⟩ := List.forall_mem_cons.mp hvs
      obtain ⟨ds, hds, hplaces⟩ := storeValue_lays l (Emit.dataWord p.size) above
        p.size (fun _ => rfl) hapart hknown
      obtain ⟨more, hmore, hplaces', hsize⟩ := ih (p := p.value l v.2 v.1) (h.append hds) hvs
      refine ⟨ds ++ more, by rw [← List.append_assoc]; exact hmore, ?_, ?_⟩
      · rw [List.map_append, hplaces, hplaces', List.map_cons, Layout.sizeOf_cons]
        exact List.range'_append_1
      · rw [List.foldl_cons, hsize, List.map_cons, Layout.sizeOf_cons, ← Nat.add_assoc]
        rfl

theorem Lays.blockId {p : Emit.Push} {cs : List (Nat × Expr)} (h : Lays above p.stmts cs)
    (id : BlockId) : Lays above (p.blockId id).stmts (cs ++ [(p.size, .u32 id.val)]) :=
  h.append ⟨rfl, List.forall_mem_singleton.mpr (Emit.apart_u32 _)⟩

/-- A push that does not fit stops both runs; another one writes to the same places. -/
theorem finish_leads (hsize : d.size .stack < 2 ^ 32) {p : Emit.Push} {cs : List (Nat × Expr)}
    (hp : Lays above p.stmts cs) (limit : UInt32) :
    Leads env (p.finish limit) (Level d H a b) (Onto fun s t =>
      ¬limit < H.toUInt32 - 2 + p.size.toUInt32 ∧ ∃ cells,
        List.Forall₂ (Cell d H.toUInt32) cs cells
          ∧ Level d (H + p.size) (written a cells) (written b cells) s t) := by
  have hcheck : StmtLeads env (.ifElse (.binary .gt (.binary .add (.var spVar) (.count p.size))
      (.u32 limit)) [.trap TrapCode.stackOverflow.code] []) (Level d H a b)
      (Onto fun s t => ¬limit < H.toUInt32 - 2 + p.size.toUInt32 ∧ Level d H a b s t) := by
    refine .ifElse (fun s t h => ⟨h.toAbreast, h.offStack.eval _ _ ?_⟩) ?_ ?_
    · simp only [Expr.Apart, Expr.count, Expr.u32, and_self]
    · exact .singleton (.trap fun s t h => h.1.toAbreast)
    · refine Leads.nil.mono (fun _ _ => id) ?_
      rintro flow s t ⟨rfl, h, c, hc, hfalse⟩
      have hsum : Execution.eval env.exe.layout s (.binary .add (.var spVar) (.count p.size))
          = .ok (.ofU32 (H.toUInt32 - 2 + p.size.toUInt32)) := eval_sum h.at.eval_sp rfl
      have hcond : Execution.eval env.exe.layout s (.binary .gt
          (.binary .add (.var spVar) (.count p.size)) (.u32 limit))
            = .ok (.ofBool (decide (limit < H.toUInt32 - 2 + p.size.toUInt32))) := by
        rw [Execution.eval, hsum]
        rfl
      rw [hcond] at hc
      cases hc
      refine ⟨rfl, fun hlt => ?_, h⟩
      rw [decide_eq_true hlt] at hfalse
      cases hfalse
  rw [Emit.Push.finish, List.cons_append, hp.code]
  refine .cons_next hcheck (.of_and fun hfits => ?_)
  refine .append_next (storesAt_leads hsize (behind_dataAt _ d H) hp.apart)
    (.of_exists fun cells => .of_and fun hcells => ?_)
  refine (Leads.singleton (raiseSp_leads p.size)).mono (fun _ _ => id) ?_
  rintro flow s t ⟨rfl, h⟩
  exact ⟨rfl, hfits, cells, hcells, h⟩

/-- The values of variables, pushed. -/
theorem Lays.variables {l : Layout} {p : Emit.Push} {cs : List (Nat × Expr)}
    (h : Lays above p.stmts cs) {xs : List (String × ValueType)}
    (hxs : ∀ x ∈ xs, x.2.isKnown = true) :
    ∃ more, Lays above (p.values l xs).stmts (cs ++ more)
      ∧ more.map (·.1) = List.range' p.size (l.sizeOf (xs.map (·.2))) := by
  obtain ⟨more, hmore, hplaces, -⟩ := h.values (l := l) (xs.map fun x => (x.2, .var x.1))
    fun v hv => by
      obtain ⟨x, hx, rfl⟩ := List.mem_map.mp hv
      exact ⟨hxs x hx, Emit.apart_var _⟩
  rw [List.foldl_map] at hmore
  rw [List.map_map] at hplaces
  exact ⟨more, hmore, hplaces⟩

/-- The code that writes results writes to the room for them. -/
theorem resultCode_lays (l : Layout) (room start off : Nat) {types : List ValueType}
    (hknown : AllKnown types) :
    ∃ cs, Lays (Emit.BlockContext.resultWord room 0) (Emit.resultCode l room start off types) cs
      ∧ cs.map (·.1) = List.range' off (l.sizeOf types) := by
  induction types generalizing start off with
  | nil => exact ⟨[], .nil _, rfl⟩
  | cons u types ih =>
      obtain ⟨hu, hknown⟩ := List.forall_mem_cons.mp hknown
      obtain ⟨cs, hcs, hplaces⟩ := storeValue_lays l
        (Emit.BlockContext.resultWord room off) (Emit.BlockContext.resultWord room 0) off (fun k => by
          rw [Emit.BlockContext.resultWord, Emit.BlockContext.resultWord, Nat.zero_add])
        (Emit.apart_var (Emit.slotName start u)) hu
      obtain ⟨ds, hds, hplaces'⟩ := ih (start + 1) (off + l.words u) hknown
      refine ⟨cs ++ ds, hcs.append hds, ?_⟩
      rw [List.map_append, hplaces, hplaces', Layout.sizeOf_cons]
      exact List.range'_append_1

/-- Values are read from words that the stacks share. -/
theorem loadCode_leads (hsize : d.size .stack < 2 ^ 32) {types : List ValueType}
    (hknown : AllKnown types) {names : List String} (hnames : ∀ x ∈ names, Emit.IsWork x) (start : Nat)
    (hwithin : H + start + env.exe.layout.sizeOf types ≤ d.size .stack)
    (hshared : ∀ i, H + start ≤ i → i < H + start + env.exe.layout.sizeOf types → b[i]? = a[i]?) :
    Leads env (Emit.loadCode env.exe.layout start names types) (Level d H a b)
      (Onto (Level d H a b)) := by
  induction types generalizing names start with
  | nil =>
      rw [Emit.loadCode, List.zip_nil_left, List.zip_nil_right]
      exact .nil
  | cons u types ih =>
      cases names with
      | nil => exact .nil
      | cons name names =>
          obtain ⟨hu, hknown⟩ := List.forall_mem_cons.mp hknown
          obtain ⟨hname, hnames⟩ := List.forall_mem_cons.mp hnames
          rw [Layout.sizeOf_cons] at hwithin hshared
          refine .cons_next (.assign_work (Emit.not_mem_baseNames_of_isWork hname)
            (Emit.ne_spVar_of_isWork hname) fun s t h => ?_)
            (ih hknown hnames (start + env.exe.layout.words u) (by omega)
              fun i hi hi' => hshared i (by omega) (by omega))
          refine eval_loadValue_congr hu fun k hk => ?_
          have hplace : (H.toUInt32 + (start + k).toUInt32).toNat = H + (start + k) := by
            rw [← Emit.toUInt32_add, toNat_toUInt32 (by omega)]
          refine h.toAbreast.eval_load h.toAnchored hsize (Emit.apart_dataAt _)
            (h.at.eval_dataAt (start + k)) ?_
          rw [hplace, h.own, h.other]
          exact hshared _ (by omega) (by omega)

/-- A frame that the stacks share is popped. -/
theorem popFrame_leads (hsize : d.size .stack < 2 ^ 32) {pl : Payload} {f : WasmShader.Function}
    {operands : List ValueType} (hpl : pl.Formed env.exe.layout f operands) {names : List String}
    (hnames : ∀ x ∈ names, Emit.IsWork x) (hwithin : H + pl.words ≤ d.size .stack)
    (hshared : ∀ i, H ≤ i → i < H + pl.words → b[i]? = a[i]?) :
    Leads env (Emit.popFrame env.exe.layout pl names) (Level d (H + pl.frameWords) a b)
      (Onto (Level d H a b)) := by
  rw [hpl.words] at hwithin hshared
  rw [Emit.popFrame, hpl.offsets]
  exact .cons_next (lowerSp_leads _) (loadCode_leads hsize hpl.known hnames 0 hwithin hshared)

end Words

end WasmShader.Execution
