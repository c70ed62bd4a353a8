import WasmShader.Proofs.LaneCode
import WasmShader.Proofs.Meaning
import WasmShader.Proofs.WordCode

/-!
# Lanes in lockstep

Two lanes whose regions hold the same words run lawful code in the same way, wherever their regions
start: an address is a base and a distance, the distance is the same for both, and so is whether the
word is in the region. What is said of a failure may name the lane, but its kind does not depend on
it.

The lanes may be the same one, with other records of the blocks that ran. Then nothing is asked of
where the regions are.
-/

namespace WasmShader

/-! ## Failures up to their text -/

/-- The failure without the sentence of detail. -/
def Failure.outline : Failure → Failure
  | .report r => .report { r with detail := "" }
  | e => e

def Abort.outline : Abort → Abort
  | .failed e => .failed e.outline
  | .crashed message => .crashed message

namespace Execution

open Shader (Expr Stmt Case CallSite AllUniform StmtsLawful CasesLawful)
open Emit (baseNames basesOf headerBase dataBase ioBase globalBase stackBuffer ioBuffer
  globalsBuffer)

def Stop.outline : Stop → Stop
  | .abort e => .abort e.outline
  | stop => stop

/-- The same result, or stops that differ in the text alone. -/
def Same {α : Type} (x y : Except Stop α) : Prop :=
  x.mapError Stop.outline = y.mapError Stop.outline

section Same

variable {α β : Type}

theorem Same.refl (x : Except Stop α) : Same x x := rfl

theorem Same.bind {x y : Except Stop α} {f g : α → Except Stop β} (h : Same x y)
    (hfg : ∀ a, Same (f a) (g a)) : Same (x >>= f) (y >>= g) := by
  cases x with
  | error e =>
      cases y with
      | error e' =>
          have houtline : e.outline = e'.outline := by injection h
          exact congrArg Except.error houtline
      | ok b => cases h
  | ok a =>
      cases y with
      | error e' => cases h
      | ok b =>
          cases h
          exact hfg a

theorem same_error {e e' : Stop} (h : e.outline = e'.outline) :
    Same (.error e : Except Stop α) (.error e') := congrArg Except.error h

theorem Same.cases {x y : Except Stop α} (h : Same x y) :
    (∃ a, x = .ok a ∧ y = .ok a)
      ∨ ∃ e e', x = .error e ∧ y = .error e' ∧ e.outline = e'.outline := by
  cases x with
  | error e =>
      cases y with
      | error e' => exact .inr ⟨e, e', rfl, rfl, by injection h⟩
      | ok b => cases h
  | ok a =>
      cases y with
      | error e' => cases h
      | ok b =>
          cases h
          exact .inl ⟨a, rfl, rfl⟩

end Same

/-! ## Pairs of lanes -/

/-- What two lanes in lockstep have for good: their numbers, the entry point of the invocation, and
the sizes of their regions. If there is a stack pointer, it stays as it is. -/
structure Pair where
  index : Nat
  index' : Nat
  entry : Option Compile.Entry
  size : Region → Nat
  sp : Option UInt32 := none

namespace Pair

/-- Where a region of a lane starts. -/
def base (d : Pair) (i : Nat) (r : Region) : UInt32 := i.toUInt32 * (d.size r).toUInt32

/-- The private variables once the regions have been found. -/
def bases (d : Pair) (i : Nat) : Vars :=
  [(globalBase, .ofU32 (d.base i .globals)), (ioBase, .ofU32 (d.base i .io)),
   (dataBase, .ofU32 (d.base i .stack + 2)), (headerBase, .ofU32 (d.base i .stack))]

/-- The region of a lane can be addressed. -/
def Reachable (d : Pair) (i : Nat) : Prop :=
  ∀ r, d.size r < 2 ^ 32 ∧ i * d.size r + d.size r ≤ 2 ^ 32

/-- Addresses come to the same: the lanes have one number, or can both be addressed. -/
def Matches (d : Pair) : Prop := d.index = d.index' ∨ d.Reachable d.index ∧ d.Reachable d.index'

end Pair

/-- The lanes are in lockstep, each with the bases of its own regions. -/
structure Twin (d : Pair) (s t : State) : Prop where
  index : s.lane.index = d.index
  index' : t.lane.index = d.index'
  entry : s.lane.entry = d.entry
  entry' : t.lane.entry = d.entry
  size : ∀ r, (s.lane.words r).size = d.size r
  words : ∀ r, t.lane.words r = s.lane.words r
  steps : t.lane.steps = s.lane.steps
  vars : t.vars = s.vars
  clear : ∀ v ∈ s.vars, v.1 ∉ baseNames
  bases : s.privates = d.bases d.index
  bases' : t.privates = d.bases d.index'
  sp : ∀ v, d.sp = some v → s.lane.stack.sp = v

/-! ## Addresses -/

section Addresses

variable {d : Pair} {s t : State}

theorem Twin.base (h : Twin d s t) (r : Region) : s.lane.base r = d.base d.index r := by
  rw [Lane.base, h.index, h.size, Pair.base]

theorem Twin.base' (h : Twin d s t) (r : Region) : t.lane.base r = d.base d.index' r := by
  rw [Lane.base, h.index', h.words, h.size, Pair.base]

/-- Where a region that can be addressed starts, it does not reach behind the last address. -/
theorem Pair.Reachable.base_le {i : Nat} (h : d.Reachable i) (r : Region) :
    (d.base i r).toNat + d.size r ≤ 2 ^ 32 := by
  obtain ⟨hsize, hplace⟩ := h r
  have hle : (d.base i r).toNat ≤ i * d.size r := by
    rw [Pair.base, UInt32.toNat_mul]
    refine (Nat.mod_le _ _).trans (Nat.mul_le_mul ?_ ?_)
    · exact Nat.mod_le _ _
    · exact Nat.mod_le _ _
  omega

/-- A word of a region that can be addressed is outside if it is too far from the base. -/
theorem Pair.Reachable.outside_iff {i : Nat} (h : d.Reachable i) (r : Region) (o : UInt32) :
    (d.base i r + o < d.base i r ∨ (d.size r).toUInt32 ≤ o) ↔ (d.size r).toUInt32 ≤ o := by
  refine ⟨fun hor => hor.elim (fun hlt => ?_) id, .inr⟩
  have hsize := toNat_toUInt32 (h r).1
  have hbase := h.base_le r
  have ho := o.toNat_lt
  rw [UInt32.lt_iff_toNat_lt, UInt32.toNat_add] at hlt
  rw [UInt32.le_iff_toNat_le, hsize]
  omega

/-- What is at a distance from the base of a region. -/
theorem Lane.locate_at {ln : Lane} {buffer : String} {r : Region}
    (hbuffer : Region.ofBuffer? buffer = some r) (o : UInt32) :
    ln.locate buffer (ln.base r + o)
      = if ln.base r + o < ln.base r ∨ (ln.words r).size.toUInt32 ≤ o then
          .error (.abort (.failed (.invalidInput .runtime ("lane " ++ toString ln.index ++ ": "
            ++ buffer ++ "[" ++ toString (ln.base r + o).toNat ++ "] outside its region"))))
        else .ok (r, o.toNat) := by
  have hdistance : ln.base r + o - ln.base r = o := by
    rw [UInt32.add_comm, UInt32.add_sub_cancel]
  rw [Lane.locate, hbuffer]
  simp only [hdistance, Bool.or_eq_true, decide_eq_true_eq]

theorem Twin.locate (h : Twin d s t) (hd : d.Matches) {buffer : String} {r : Region}
    (hbuffer : Region.ofBuffer? buffer = some r) (o : UInt32) :
    Same (s.lane.locate buffer (d.base d.index r + o))
      (t.lane.locate buffer (d.base d.index' r + o)) := by
  have hiff : (s.lane.base r + o < s.lane.base r ∨ (s.lane.words r).size.toUInt32 ≤ o)
      ↔ (t.lane.base r + o < t.lane.base r ∨ (t.lane.words r).size.toUInt32 ≤ o) := by
    rw [h.base, h.base', h.words, h.size]
    rcases hd with hindex | ⟨hreach, hreach'⟩
    · rw [hindex]
    · rw [hreach.outside_iff, hreach'.outside_iff]
  rw [← h.base, ← h.base', Lane.locate_at hbuffer, Lane.locate_at hbuffer]
  by_cases hout : s.lane.base r + o < s.lane.base r ∨ (s.lane.words r).size.toUInt32 ≤ o
  · rw [if_pos hout, if_pos (hiff.mp hout)]
    exact same_error rfl
  · rw [if_neg hout, if_neg (mt hiff.mpr hout)]
    exact Same.refl _

/-- A place in a buffer is as far from the base on one lane as on the other. -/
def SamePlace (d : Pair) (buffer : String) (x y : Except Stop Datum) : Prop :=
  (∃ r, Region.ofBuffer? buffer = some r ∧ ∃ o, x = .ok (.ofU32 (d.base d.index r + o))
    ∧ y = .ok (.ofU32 (d.base d.index' r + o)))
  ∨ ∃ e e', x = .error e ∧ y = .error e' ∧ e.outline = e'.outline

end Addresses

/-! ## Expressions -/

section Eval

variable {d : Pair} {s t : State}

theorem lookup_eq_none {vars : Vars} {name : String} (h : ∀ v ∈ vars, v.1 ≠ name) :
    vars.lookup name = none := by
  induction vars with
  | nil => rfl
  | cons v vs ih =>
      obtain ⟨hv, hvs⟩ := List.forall_mem_cons.mp h
      have hne : (name == v.1) = false := beq_eq_false_iff_ne.mpr hv.symm
      rw [List.lookup_cons, hne]
      exact ih hvs

theorem Pair.lookup_bases (d : Pair) (i : Nat) {name : String} (h : name ∉ baseNames) :
    (d.bases i).lookup name = none := by
  refine lookup_eq_none fun v hv hname => h ?_
  have hnames : (d.bases i).map (·.1) = baseNames.reverse := rfl
  rw [← hname, ← List.mem_reverse, ← hnames]
  exact List.mem_map_of_mem hv

/-- A variable that holds no base has the same value on both lanes. -/
theorem Twin.lookup (h : Twin d s t) {name : String} (hname : name ∉ baseNames) :
    s.lookup name = t.lookup name := by
  rw [State.lookup, State.lookup, h.vars, h.bases, h.bases', d.lookup_bases _ hname,
    d.lookup_bases _ hname]

/-- The bases of a buffer are those of its region. -/
theorem mem_basesOf {buffer name : String} (h : name ∈ basesOf buffer) :
    ∃ r o, Region.ofBuffer? buffer = some r ∧ name ∈ baseNames
      ∧ ∀ (d : Pair) (i : Nat), (d.bases i).lookup name = some (.ofU32 (d.base i r + o)) := by
  unfold basesOf at h
  split at h
  · next hbuffer =>
    subst hbuffer
    simp only [List.mem_cons, List.not_mem_nil, or_false] at h
    rcases h with rfl | rfl
    · refine ⟨.stack, 0, rfl, by decide, fun d i => ?_⟩
      rw [UInt32.add_zero]
      rfl
    · exact ⟨.stack, 2, rfl, by decide, fun d i => rfl⟩
  · split at h
    · next hbuffer =>
      subst hbuffer
      simp only [List.mem_cons, List.not_mem_nil, or_false] at h
      subst h
      refine ⟨.io, 0, rfl, by decide, fun d i => ?_⟩
      rw [UInt32.add_zero]
      rfl
    · split at h
      · next hbuffer =>
        subst hbuffer
        simp only [List.mem_cons, List.not_mem_nil, or_false] at h
        subst h
        refine ⟨.globals, 0, rfl, by decide, fun d i => ?_⟩
        rw [UInt32.add_zero]
        rfl
      · cases h

theorem Twin.lookup_base (h : Twin d s t) {buffer name : String} (hname : name ∈ basesOf buffer) :
    SamePlace d buffer (s.lookup name) (t.lookup name) := by
  obtain ⟨r, o, hbuffer, hbase, hlookup⟩ := mem_basesOf hname
  have hvars : s.vars.lookup name = none :=
    lookup_eq_none fun v hv hv' => h.clear v hv (hv' ▸ hbase)
  refine .inl ⟨r, hbuffer, o, ?_, ?_⟩
  · rw [State.lookup, hvars, h.bases, hlookup]
  · rw [State.lookup, h.vars, hvars, h.bases', hlookup]

theorem add_sub (a b c : UInt32) : a + (b - c) = a + b - c := by
  rw [UInt32.sub_eq_add_neg, ← UInt32.add_assoc, ← UInt32.sub_eq_add_neg]

theorem SamePlace.shift {buffer : String} {x y u v : Except Stop Datum}
    (h : SamePlace d buffer x y) (huv : Same u v) {op : Shader.BinaryOp}
    (hop : op = .add ∨ op = .sub) :
    SamePlace d buffer (do let a ← x; let b ← u; binary op a b)
      (do let a ← y; let b ← v; binary op a b) := by
  rcases h with ⟨r, hbuffer, o, rfl, rfl⟩ | ⟨e, e', rfl, rfl, houtline⟩
  · rcases huv.cases with ⟨b, rfl, rfl⟩ | ⟨e, e', rfl, rfl, houtline⟩
    · rcases hop with rfl | rfl
      · refine .inl ⟨r, hbuffer, o + b.x, ?_, ?_⟩
        · rw [← UInt32.add_assoc]
          rfl
        · rw [← UInt32.add_assoc]
          rfl
      · refine .inl ⟨r, hbuffer, o - b.x, ?_, ?_⟩
        · rw [add_sub]
          rfl
        · rw [add_sub]
          rfl
    · exact .inr ⟨e, e', rfl, rfl, houtline⟩
  · exact .inr ⟨e, e', rfl, rfl, houtline⟩

theorem Twin.load (h : Twin d s t) (hd : d.Matches) {buffer : String} {x y : Except Stop Datum}
    (hxy : SamePlace d buffer x y) :
    Same (do let i ← x; s.load buffer i.x) (do let i ← y; t.load buffer i.x) := by
  rcases hxy with ⟨r, hbuffer, o, rfl, rfl⟩ | ⟨e, e', rfl, rfl, houtline⟩
  · refine (h.locate hd hbuffer o).bind fun place => ?_
    obtain ⟨r', k⟩ := place
    dsimp only
    rw [h.words]
    exact Same.refl _
  · exact same_error houtline

mutual

/-- A uniform expression has the same value on both lanes. -/
theorem Twin.eval (h : Twin d s t) (hd : d.Matches) (l : Layout) :
    (e : Expr) → e.Uniform → Same (eval l s e) (eval l t e)
  | .lit type words, _ => Same.refl _
  | .var name, he => by
      rw [Expr.Uniform] at he
      rw [Execution.eval, Execution.eval, h.lookup he]
      exact Same.refl _
  | .laneIndex, he => by
      rw [Expr.Uniform] at he
      exact he.elim
  | .load buffer index, he => by
      rw [Expr.Uniform] at he
      rw [Execution.eval, Execution.eval]
      exact h.load hd (h.evalPlace hd l index he)
  | .binary op left right, he => by
      rw [Expr.Uniform] at he
      rw [Execution.eval, Execution.eval]
      exact (h.eval hd l left he.1).bind fun a =>
        (h.eval hd l right he.2).bind fun b => Same.refl _
  | .unary op x, he => by
      rw [Expr.Uniform] at he
      rw [Execution.eval, Execution.eval]
      exact (h.eval hd l x he).bind fun a => Same.refl _
  | .select cond onTrue onFalse, he => by
      rw [Expr.Uniform] at he
      rw [Execution.eval, Execution.eval]
      refine (h.eval hd l cond he.1).bind fun c => ?_
      split
      · exact h.eval hd l onTrue he.2.1
      · exact h.eval hd l onFalse he.2.2
  | .compose type parts, he => by
      rw [Expr.Uniform] at he
      rw [Execution.eval, Execution.eval]
      exact (h.evalAll hd l parts he).bind fun ds => Same.refl _
  | .extract x index, he => by
      rw [Expr.Uniform] at he
      rw [Execution.eval, Execution.eval]
      exact (h.eval hd l x he).bind fun a => Same.refl _
  | .bitcast type x, he => by
      rw [Expr.Uniform] at he
      rw [Execution.eval, Execution.eval]
      exact (h.eval hd l x he).bind fun a => Same.refl _
  | .convert type x, he => by
      rw [Expr.Uniform] at he
      rw [Execution.eval, Execution.eval]
      exact (h.eval hd l x he).bind fun a => Same.refl _
  | .intrinsic op args params results, he => by
      rw [Expr.Uniform] at he
      rw [Execution.eval, Execution.eval]
      exact (h.evalAll hd l args he).bind fun ds => Same.refl _
  | .absent, _ => Same.refl _

/-- A place is as far from the base on both lanes. -/
theorem Twin.evalPlace (h : Twin d s t) (hd : d.Matches) (l : Layout) {buffer : String} :
    (e : Expr) → e.Place buffer → SamePlace d buffer (eval l s e) (eval l t e)
  | .var name, he => by
      rw [Expr.Place] at he
      rw [Execution.eval, Execution.eval]
      exact h.lookup_base he
  | .binary op left right, he => by
      rw [Expr.Place] at he
      rw [Execution.eval, Execution.eval]
      exact (h.evalPlace hd l left he.2.1).shift (h.eval hd l right he.2.2) he.1
  | .lit _ _, he | .laneIndex, he | .load _ _, he | .unary _ _, he | .select _ _ _, he
  | .compose _ _, he | .extract _ _, he | .bitcast _ _, he | .convert _ _, he
  | .intrinsic _ _ _ _, he | .absent, he => by
      rw [Expr.Place] at he
      · exact he.elim
      all_goals nofun

theorem Twin.evalAll (h : Twin d s t) (hd : d.Matches) (l : Layout) :
    (es : List Expr) → AllUniform es → Same (evalAll l s es) (evalAll l t es)
  | [], _ => Same.refl _
  | e :: es, hes => by
      rw [AllUniform] at hes
      rw [Execution.evalAll, Execution.evalAll]
      exact (h.eval hd l e hes.1).bind fun a =>
        (h.evalAll hd l es hes.2).bind fun as => Same.refl _

end

end Eval

/-! ## Changes of the state -/

section Changes

variable {d : Pair} {s t : State}

theorem clear_set {vars vars' : Vars} {name : String} {v : Datum}
    (h : vars.set? name v = some vars') (hclear : ∀ x ∈ vars, x.1 ∉ baseNames) :
    ∀ x ∈ vars', x.1 ∉ baseNames := by
  induction vars generalizing vars' with
  | nil => cases h
  | cons x xs ih =>
      obtain ⟨hx, hxs⟩ := List.forall_mem_cons.mp hclear
      rw [Vars.set?] at h
      split at h
      · cases h
        exact List.forall_mem_cons.mpr ⟨hx, hxs⟩
      · obtain ⟨more, hmore, rfl⟩ := Option.map_eq_some_iff.mp h
        exact List.forall_mem_cons.mpr ⟨hx, ih hmore hxs⟩

theorem set_eq_none {vars : Vars} {name : String} (v : Datum) (h : ∀ x ∈ vars, x.1 ≠ name) :
    vars.set? name v = none := by
  induction vars with
  | nil => rfl
  | cons x xs ih =>
      obtain ⟨hx, hxs⟩ := List.forall_mem_cons.mp h
      rw [Vars.set?, if_neg hx, ih hxs]
      rfl

theorem Pair.ne_of_mem_bases (d : Pair) (i : Nat) {name : String} (h : name ∉ baseNames) :
    ∀ v ∈ d.bases i, v.1 ≠ name := by
  intro v hv hname
  have hnames : (d.bases i).map (·.1) = baseNames.reverse := rfl
  apply h
  rw [← hname, ← List.mem_reverse, ← hnames]
  exact List.mem_map_of_mem hv

theorem Twin.withVars (h : Twin d s t) {vars : Vars} (hclear : ∀ v ∈ vars, v.1 ∉ baseNames) :
    Twin d { s with vars } { t with vars } :=
  { h with vars := rfl, clear := hclear }

theorem Twin.withWords (h : Twin d s t) {r : Region} {ws : Array UInt32}
    (hsize : ws.size = d.size r)
    (hsp : r = .stack → ∀ v, d.sp = some v → LaneStack.sp ⟨ws⟩ = v) :
    Twin d (s.withWords r ws) (t.withWords r ws) where
  index := by cases r <;> exact h.index
  index' := by cases r <;> exact h.index'
  entry := by cases r <;> exact h.entry
  entry' := by cases r <;> exact h.entry'
  size r' := by
    by_cases hr : r' = r
    · rw [hr, State.lane_withWords, Lane.words_withWords, hsize]
    · rw [State.lane_withWords, Lane.words_withWords_ne hr, h.size]
  words r' := by
    by_cases hr : r' = r
    · rw [hr, State.lane_withWords, State.lane_withWords, Lane.words_withWords,
        Lane.words_withWords]
    · rw [State.lane_withWords, State.lane_withWords, Lane.words_withWords_ne hr,
        Lane.words_withWords_ne hr, h.words]
  steps := by cases r <;> exact h.steps
  vars := h.vars
  clear := h.clear
  bases := h.bases
  bases' := h.bases'
  sp v hv := by
    cases r with
    | stack => exact hsp rfl v hv
    | io | globals => exact h.sp v hv

/-- A word is written, though not the stack pointer if that is to stay. -/
theorem Twin.setWord (h : Twin d s t) {r : Region} (hsp : r = .stack → d.sp = none) (i : Nat)
    (v : UInt32) : Twin d { s with lane := s.lane.setWord r i v }
      { t with lane := t.lane.setWord r i v } := by
  rw [Lane.setWord_eq, Lane.setWord_eq, h.words]
  refine h.withWords ((Array.size_setIfInBounds ..).trans (h.size r)) fun hr v' hv' => ?_
  rw [hsp hr] at hv'
  cases hv'

theorem sp_setTrap (st : LaneStack) (code : TrapCode) : (st.setTrap code).sp = st.sp := by
  unfold LaneStack.setTrap LaneStack.sp LaneStack.trapWord
  simp [Array.getD_eq_getD_getElem?]

theorem Twin.trapped (h : Twin d s t) (code : TrapCode) :
    Twin d (s.trapped code) (t.trapped code) := by
  have hwords : t.lane.stack = s.lane.stack := congrArg LaneStack.mk (h.words .stack)
  have hs : s.trapped code = s.withWords .stack (s.lane.stack.setTrap code).words := rfl
  have ht : t.trapped code = t.withWords .stack (s.lane.stack.setTrap code).words := by
    rw [← hwords]
    rfl
  rw [hs, ht]
  refine h.withWords ((Array.size_setIfInBounds ..).trans (h.size .stack)) fun _ v hv => ?_
  exact (sp_setTrap _ code).trans (h.sp v hv)

end Changes

/-! ## Runs -/

section Runs

open Exec

variable {d : Pair} {α β : Type}

/-- Both runs end with the same, and the lanes are still in lockstep. -/
def Ended (d : Pair) (x y : Ending α) : Prop := Same x.1 y.1 ∧ Twin d x.2 y.2

/-- From states in lockstep, the computations run alike. -/
def Lockstep (d : Pair) (x y : Exec α) : Prop :=
  ∀ s t, Twin d s t → Option.Rel (Ended d) (outcome x s) (outcome y t)

theorem Lockstep.pure (a : α) : Lockstep d (Pure.pure a) (Pure.pure a) :=
  fun _ _ h => .some ⟨Same.refl _, h⟩

theorem Lockstep.bind {x y : Exec α} {f g : α → Exec β} (hxy : Lockstep d x y)
    (hfg : ∀ a, Lockstep d (f a) (g a)) : Lockstep d (x >>= f) (y >>= g) := by
  intro s t h
  rw [outcome_bind, outcome_bind]
  refine (hxy s t h).bind ?_
  rintro ⟨r, s'⟩ ⟨r', t'⟩ ⟨hsame, htwin⟩
  rcases hsame.cases with ⟨a, rfl, rfl⟩ | ⟨e, e', rfl, rfl, houtline⟩
  · exact hfg a s' t' htwin
  · exact .some ⟨same_error houtline, htwin⟩

/-- Runs that stop at once. -/
theorem Ended.stop {s t : State} {e e' : Stop} (houtline : e.outline = e'.outline)
    (h : Twin d s t) :
    Option.Rel (Ended d) (Ending.settle ((.error e, s) : Ending α)) (Ending.settle (.error e', t)) := by
  cases e with
  | outOfFuel =>
      cases e' with
      | outOfFuel => exact .none
      | trap | abort => cases houtline
  | trap code =>
      cases e' with
      | outOfFuel => cases houtline
      | trap | abort => exact .some ⟨same_error houtline, h⟩
  | abort cause =>
      cases e' with
      | outOfFuel => cases houtline
      | trap | abort => exact .some ⟨same_error houtline, h⟩

theorem Lockstep.throw (e : Stop) :
    Lockstep d (MonadExcept.throw e : Exec α) (MonadExcept.throw e) :=
  fun _ _ h => Ended.stop rfl h

theorem Lockstep.trap (code : TrapCode) : Lockstep d (Exec.trap code : Exec α) (Exec.trap code) :=
  fun _ _ h => .some ⟨Same.refl _, h.trapped code⟩

theorem Twin.ofExcept {s t : State} (h : Twin d s t) {x y : Except Stop α} (hxy : Same x y) :
    Option.Rel (Ended d) (outcome (Exec.ofExcept x) s) (outcome (Exec.ofExcept y) t) := by
  rcases hxy.cases with ⟨a, rfl, rfl⟩ | ⟨e, e', rfl, rfl, houtline⟩
  · exact .some ⟨Same.refl _, h⟩
  · cases e with
    | trap code =>
        cases e' with
        | trap code' =>
            cases houtline
            exact Lockstep.trap code s t h
        | abort | outOfFuel => cases houtline
    | abort cause =>
        cases e' with
        | abort cause' => exact .some ⟨same_error houtline, h⟩
        | trap | outOfFuel => cases houtline
    | outOfFuel =>
        cases e' with
        | outOfFuel => exact .none
        | trap | abort => cases houtline

theorem error_of_ofExcept {e : Stop} {s : State} {r : Ending α}
    (h : outcome (Exec.ofExcept (.error e)) s = some r) : ∃ e', r.1 = .error e' := by
  cases e with
  | trap | abort =>
      cases h
      exact ⟨_, rfl⟩
  | outOfFuel => cases h

theorem Twin.ofExcept_error {s t : State} (h : Twin d s t) {e e' : Stop}
    (houtline : e.outline = e'.outline) (f g : α → Exec β) :
    Option.Rel (Ended d) (outcome (Exec.ofExcept (.error e) >>= f) s)
      (outcome (Exec.ofExcept (.error e') >>= g) t) := by
  rw [outcome_bind, outcome_bind]
  refine ((h.ofExcept (same_error houtline)).and_right fun _ => error_of_ofExcept).bind ?_
  rintro ⟨r, s'⟩ ⟨r', t'⟩ ⟨⟨hsame, htwin⟩, e'', rfl⟩
  rcases hsame.cases with ⟨a, rfl, ha⟩ | ⟨e₁, e₂, rfl, he, houtline⟩
  · cases ha
  · cases he
    exact .some ⟨same_error houtline, htwin⟩

theorem Lockstep.value (hd : d.Matches) (env : Env) {e : Expr} (he : e.Uniform) :
    Lockstep d (Exec.value env e) (Exec.value env e) :=
  fun _ _ h => h.ofExcept (h.eval hd env.exe.layout e he)

theorem Lockstep.values (hd : d.Matches) (env : Env) {es : List Expr} (hes : AllUniform es) :
    Lockstep d (Exec.values env es) (Exec.values env es) :=
  fun _ _ h => h.ofExcept (h.evalAll hd env.exe.layout es hes)

theorem Lockstep.assign {name : String} (hname : name ∉ baseNames) (v : Datum) :
    Lockstep d (Exec.assign name v) (Exec.assign name v) := by
  intro s t h
  have houtcome (s : State) : outcome (Exec.assign name v) s = (s.vars.set? name v).elim
      ((s.privates.set? name v).elim
        (some (.error (.fault ("assignment to undefined variable " ++ Text.quote name)), s))
        fun privates => some (.ok (), { s with privates }))
      fun vars => some (.ok (), { s with vars }) := by
    unfold Exec.assign
    rw [outcome_bind_ok (a := s) (t := s) rfl]
    cases s.vars.set? name v with
    | some vars => rfl
    | none => cases s.privates.set? name v <;> rfl
  have hnone := set_eq_none v (d.ne_of_mem_bases d.index hname)
  have hnone' := set_eq_none v (d.ne_of_mem_bases d.index' hname)
  rw [← h.bases] at hnone
  rw [← h.bases'] at hnone'
  rw [houtcome, houtcome, h.vars, hnone, hnone']
  cases hset : s.vars.set? name v with
  | some vars => exact .some ⟨Same.refl _, h.withVars (clear_set hset h.clear)⟩
  | none => exact .some ⟨Same.refl _, h⟩

theorem Lockstep.assignAll {names : List String} (hnames : ∀ n ∈ names, n ∉ baseNames)
    (vs : List Datum) : Lockstep d (Exec.assignAll names vs) (Exec.assignAll names vs) := by
  induction names generalizing vs with
  | nil => cases vs <;> exact .pure ()
  | cons name names ih =>
      cases vs with
      | nil => exact .pure ()
      | cons v vs =>
          obtain ⟨hname, hnames⟩ := List.forall_mem_cons.mp hnames
          exact (Lockstep.assign hname v).bind fun _ => ih hnames vs

/-- The region of a buffer that may be written to keeps no stack pointer. -/
def Writable (d : Pair) (W : String → Prop) : Prop := W stackBuffer → d.sp = none

theorem eq_stackBuffer {buffer : String} (h : Region.ofBuffer? buffer = some .stack) :
    buffer = stackBuffer := by
  unfold Region.ofBuffer? at h
  split at h
  · assumption
  · split at h
    · cases h
    · split at h <;> cases h

theorem region_of_locate {ln : Lane} {buffer : String} {idx : UInt32} {r r' : Region} {k : Nat}
    (hbuffer : Region.ofBuffer? buffer = some r) (h : ln.locate buffer idx = .ok (r', k)) :
    r' = r := by
  rw [Lane.locate, hbuffer] at h
  dsimp only at h
  split at h
  · cases h
  · cases h
    rfl

/-- A word is written to the same place on both lanes. -/
theorem Lockstep.store (hd : d.Matches) {W : String → Prop} (hwritable : Writable d W)
    {buffer : String} (hW : W buffer) {r : Region} (hbuffer : Region.ofBuffer? buffer = some r)
    (o v : UInt32) : Lockstep d (Exec.store buffer (d.base d.index r + o) v)
      (Exec.store buffer (d.base d.index' r + o) v) := by
  intro s t h
  unfold Exec.store
  rw [outcome_bind_ok (a := s) (t := s) rfl, outcome_bind_ok (a := t) (t := t) rfl,
    outcome_bind, outcome_bind]
  rcases (h.locate hd hbuffer o).cases with
    ⟨⟨r', k⟩, hok, hok'⟩ | ⟨e, e', herror, herror', houtline⟩
  · have hr : r' = .stack → d.sp = none := by
      rintro rfl
      rw [← region_of_locate hbuffer hok] at hbuffer
      exact hwritable (eq_stackBuffer hbuffer ▸ hW)
    rw [hok, hok']
    exact .some ⟨Same.refl _, h.setWord hr k v⟩
  · rw [herror, herror', ← outcome_bind, ← outcome_bind]
    exact h.ofExcept_error houtline _ _

/-- Stores to places in a buffer. -/
theorem Lockstep.storeStmt (hd : d.Matches) {W : String → Prop} (hwritable : Writable d W)
    {buffer : String} (hW : W buffer) (env : Env) {index e : Expr} (hindex : index.Place buffer)
    (he : e.Uniform) :
    Lockstep d
      (do let i ← Exec.value env index
          let v ← Exec.value env e
          Exec.store buffer i.x v.x
          return Flow.next)
      (do let i ← Exec.value env index
          let v ← Exec.value env e
          Exec.store buffer i.x v.x
          return Flow.next) := by
  intro s t h
  have hvalue (s : State) : Exec.outcome (Exec.value env index) s
      = Exec.outcome (Exec.ofExcept (eval env.exe.layout s index)) s := rfl
  rw [outcome_bind, outcome_bind, hvalue, hvalue]
  rcases h.evalPlace hd env.exe.layout index hindex with
    ⟨r, hbuffer, o, hok, hok'⟩ | ⟨e, e', herror, herror', houtline⟩
  · rw [hok, hok']
    exact ((Lockstep.value hd env he).bind fun v =>
      (Lockstep.store hd hwritable hW hbuffer o v.x).bind fun _ => .pure _) s t h
  · rw [herror, herror', ← outcome_bind, ← outcome_bind]
    exact h.ofExcept_error houtline _ _

theorem Lockstep.checkCancelled (env : Env) :
    Lockstep d (Exec.checkCancelled env) (Exec.checkCancelled env) := by
  unfold Exec.checkCancelled
  split
  · exact .throw _
  · exact .pure ()

theorem Lockstep.edit {f g : State → State} (h : ∀ s t, Twin d s t → Twin d (f s) (g t)) :
    Lockstep d (modify f : Exec Unit) (modify g) :=
  fun s t htwin => .some ⟨Same.refl _, h s t htwin⟩

/-- Computations that first look at the state. -/
theorem Lockstep.get_bind {f g : State → Exec α}
    (h : ∀ s t, Twin d s t → Option.Rel (Ended d) (outcome (f s) s) (outcome (g t) t)) :
    Lockstep d (get >>= f) (get >>= g) := by
  intro s t htwin
  rw [outcome_bind_ok (a := s) (t := s) rfl, outcome_bind_ok (a := t) (t := t) rfl]
  exact h s t htwin

/-- A block is accounted for alike; what is recorded of it does not count. -/
theorem Lockstep.dispatch (env : Env) (id : BlockId) :
    Lockstep d (Exec.dispatch env id) (Exec.dispatch env id) := by
  unfold Exec.dispatch
  refine (Lockstep.checkCancelled env).bind fun _ => (Lockstep.edit fun s t h => ?_).bind
    fun _ => Lockstep.get_bind fun s t h => ?_
  · exact { h with steps := congrArg (· + 1) h.steps }
  · have hrecord : Lockstep d
        (if env.tracing = true then
          modify fun s : State =>
            { s with lane := { s.lane with trace := (id, s.lane.stack.sp) :: s.lane.trace } }
        else Pure.pure () : Exec Unit)
        (if env.tracing = true then
          modify fun s : State =>
            { s with lane := { s.lane with trace := (id, s.lane.stack.sp) :: s.lane.trace } }
        else Pure.pure () : Exec Unit) := by
      split
      · exact .edit fun s t h => { h with }
      · exact .pure ()
    dsimp only
    rw [h.steps]
    split
    · exact .some ⟨rfl, h⟩
    · exact hrecord s t h

theorem clear_frame {f : Shader.Function} (hf : ∀ v ∈ f.params ++ f.locals, v.name ∉ baseNames)
    (args : List Datum) : ∀ v ∈ frame f args, v.1 ∉ baseNames := by
  intro v hv
  rw [frame, List.mem_reverse, List.mem_append] at hv
  rcases hv with hv | hv
  · obtain ⟨x, hx, hname⟩ := List.mem_map.mp (List.of_mem_zip hv).1
    rw [← hname]
    exact hf x (List.mem_append_left _ hx)
  · obtain ⟨x, hx, rfl⟩ := List.mem_map.mp hv
    exact hf x (List.mem_append_right _ hx)

theorem Lockstep.resultsOf (f : Shader.Function) (flow : Flow) :
    Lockstep d (Exec.resultsOf f flow) (Exec.resultsOf f flow) := by
  cases flow with
  | ret values => exact .pure values
  | next =>
      rw [Exec.resultsOf]
      split
      · exact .pure []
      · exact .throw _
  | leave label | again label => exact .throw _

/-- The functions that may be called are lawful. -/
def Lawful (m : Shader.Module) (P : CallSite → Prop) (W : String → Prop) : Prop :=
  ∀ c, P c → ∀ f, m.function? c.func = some f → f.Lawful P W

/-! ### Lawful code -/

section Lawful

variable {P : CallSite → Prop} {W : String → Prop} {env : Env}

theorem lawful_part {st : Stmt} (h : st.Lawful P W) {part : List Stmt} (hpart : part ∈ st.parts) :
    ∀ s ∈ part, s.Lawful P W := by
  rw [← Shader.stmtsLawful_iff]
  cases st with
  | ifElse cond body alternative =>
      rw [Stmt.Lawful] at h
      rcases List.mem_pair.mp hpart with rfl | rfl
      · exact h.2.1
      · exact h.2.2
  | block label body | loop label body =>
      rw [Stmt.Lawful] at h
      exact List.mem_singleton.mp hpart ▸ h
  | switch selector cases fallback =>
      rw [Stmt.Lawful] at h
      rcases List.mem_append.mp hpart with hcase | hfallback
      · obtain ⟨c, hc, rfl⟩ := List.mem_map.mp hcase
        exact Shader.casesLawful_iff.mp h.2.1 c hc
      · exact List.mem_singleton.mp hfallback ▸ h.2.2
  | _ => cases hpart

theorem uniform_test {st : Stmt} (h : st.Lawful P W) {e : Expr} (he : st.test? = some e) :
    e.Uniform := by
  cases st with
  | ifElse | switch =>
      rw [Stmt.Lawful] at h
      cases he
      exact h.1
  | _ => cases he

theorem Lockstep.simple (hd : d.Matches) (hwritable : Writable d W) (env : Env) {st : Stmt}
    (h : st.Lawful P W) (hst : st.isSimple) : Lockstep d (stmt env 1 st) (stmt env 1 st) := by
  cases st with
  | ifElse | block | loop | switch | call => cases hst
  | assign name e =>
      rw [Stmt.Lawful] at h
      rw [stmt]
      exact (Lockstep.value hd env h.2).bind fun v =>
        (Lockstep.assign h.1 v).bind fun _ => .pure _
  | store buffer index e =>
      rw [Stmt.Lawful] at h
      rw [stmt]
      exact .storeStmt hd hwritable h.1 env h.2.1 h.2.2
  | ret es =>
      rw [Stmt.Lawful] at h
      rw [stmt]
      exact (Lockstep.values hd env h).bind fun vs => .pure _
  | leave label => rw [stmt]; exact .pure _
  | again label => rw [stmt]; exact .pure _
  | trap code => rw [stmt]; exact .trap _
  | absent => rw [stmt]; exact .throw _

theorem Lockstep.receive {results : List String} (h : ∀ n ∈ results, n ∉ baseNames)
    (name : String) (got : List Datum) :
    Lockstep d (Exec.receive name results got) (Exec.receive name results got) := by
  unfold Exec.receive
  split
  · exact (Lockstep.throw _).bind fun _ => .assignAll h got
  · exact .assignAll h got

/-- Functions whose bodies run in lockstep do, on the same arguments. -/
theorem Lockstep.framed {f : Shader.Function} (hf : f.Lawful P W) {x y : Exec Flow}
    (hxy : Lockstep d x y) (args : List Datum) :
    Lockstep d (bare.framed f args x) (bare.framed f args y) := by
  have hrun : Lockstep d
      (do let outer := (← get).vars
          modify fun s : State => { s with vars := frame f args }
          let flow ← x
          modify fun s : State => { s with vars := outer }
          Exec.resultsOf f flow)
      (do let outer := (← get).vars
          modify fun s : State => { s with vars := frame f args }
          let flow ← y
          modify fun s : State => { s with vars := outer }
          Exec.resultsOf f flow) := by
    refine .get_bind fun s t h => ?_
    rw [h.vars]
    exact ((Lockstep.edit fun s t h => h.withVars (clear_frame hf.vars args)).bind fun _ =>
      hxy.bind fun flow => (Lockstep.edit fun s' t' h' => h'.withVars h.clear).bind fun _ =>
        .resultsOf f flow) s t h
  rw [Exec.framed_bare, Exec.framed_bare]
  split
  · exact (Lockstep.throw _).bind fun _ => hrun
  · exact hrun

/-- The steps of lawful code keep lanes in lockstep. -/
theorem preserved_lockstep (hd : d.Matches) (hwritable : Writable d W)
    (hlawful : Lawful env.exe.module P W) :
    Preserved bare bare env env 0 (fun (_ : Unit) st => st.Lawful P W) (fun _ f => f.Lawful P W)
      (fun _ {_} => Lockstep d) where
  exe := rfl
  part hst hpart := lawful_part hst hpart
  body hf := Shader.stmtsLawful_iff.mp hf.body
  pure := Lockstep.pure
  bind := Lockstep.bind
  outOfFuel y hy := by
    rw [hy rfl]
    exact .throw _
  reached := .pure ()
  checkCancelled := .checkCancelled env
  dispatch _ _ := .dispatch env _
  called hst hf := by
    rw [Stmt.Lawful] at hst
    exact ⟨(), hlawful _ hst.1 _ hf, fun _ _ => id⟩
  simple := Lockstep.simple hd hwritable env
  test hst he := .value hd env (uniform_test hst he)
  undefined _ := .throw _
  values hst := by
    rw [Stmt.Lawful] at hst
    exact .values hd env hst.2.1
  receive hst got := by
    rw [Stmt.Lawful] at hst
    exact .receive hst.2.2 _ got
  framed hf hxy args := hxy.framed hf args

/-- Lawful code runs in lockstep: statements, one statement, a loop and a call. -/
theorem lockstep_run (hd : d.Matches) (hwritable : Writable d W)
    (hlawful : Lawful env.exe.module P W) (n : Nat) :
    (∀ ss, StmtsLawful P W ss → Lockstep d (stmts env n ss) (stmts env n ss))
      ∧ (∀ st : Stmt, st.Lawful P W → Lockstep d (stmt env n st) (stmt env n st))
      ∧ (∀ label body, StmtsLawful P W body →
        Lockstep d (loop env n label body) (loop env n label body))
      ∧ (∀ f : Shader.Function, f.Lawful P W → ∀ args,
        Lockstep d (call env n f args) (call env n f args)) := by
  obtain ⟨hstmts, hstmt, hloop, hcall⟩ :=
    (preserved_lockstep hd hwritable hlawful).run_bare n ()
  exact ⟨fun ss hss => hstmts ss (Shader.stmtsLawful_iff.mp hss), hstmt,
    fun label body hbody => hloop label body (Shader.stmtsLawful_iff.mp hbody),
    fun f hf args => hcall f args hf⟩

end Lawful

end Runs

end Execution

end WasmShader
