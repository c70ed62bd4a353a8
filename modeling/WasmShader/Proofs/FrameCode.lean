import WasmShader.Emit.Dispatch
import WasmShader.Proofs.WorkState

/-!
# Code of frames

What the code does that moves frames between variables and the data words of a lane. While a
function runs, the stack pointer is in a variable. Words are addressed from it: a push writes
above it and moves it at the end, a pop moves it first and reads above it. Neither touches a
word below.

`Push.Writes` says of a push what words it puts above the stack pointer. Room that it leaves
keeps the words that are there.
-/

namespace WasmShader

open Execution (Datum Env FitsAll Region PlacesAt meaning storedAll wordsFrom)

namespace Emit

/-! ## Where the regions of a lane are -/

/-- The private variables say where the regions of the lane start. -/
structure Based (s : Execution.State) : Prop where
  header : s.privates.lookup headerBase = some (.ofU32 (s.lane.base .stack))
  data : s.privates.lookup dataBase = some (.ofU32 (s.lane.base .stack + 2))
  io : s.privates.lookup ioBase = some (.ofU32 (s.lane.base .io))
  globals : s.privates.lookup globalBase = some (.ofU32 (s.lane.base .globals))
  addressable : ∀ r, s.lane.Addressable r

/-- Nothing but the sizes of the regions matters. -/
theorem Based.of_sizes {s s' : Execution.State} (h : Based s) (hprivates : s'.privates = s.privates)
    (hindex : s'.lane.index = s.lane.index)
    (hsize : ∀ r, (s'.lane.words r).size = (s.lane.words r).size) : Based s' := by
  have hbase : ∀ r, s'.lane.base r = s.lane.base r := by
    intro r
    rw [Execution.Lane.base, Execution.Lane.base, hindex, hsize]
  refine ⟨?_, ?_, ?_, ?_, fun r => ⟨?_, ?_⟩⟩
  · rw [hprivates, hbase]; exact h.header
  · rw [hprivates, hbase]; exact h.data
  · rw [hprivates, hbase]; exact h.io
  · rw [hprivates, hbase]; exact h.globals
  · rw [hsize]; exact (h.addressable r).size
  · rw [hsize, hindex]; exact (h.addressable r).place

theorem Based.addressed {s : Execution.State} (h : Based s) : Addressed s :=
  ⟨h.globals, h.addressable .globals⟩

theorem size_withWords {ln : Execution.Lane} {r : Region} {ws : Array UInt32}
    (h : ws.size = (ln.words r).size) (r' : Region) :
    ((ln.withWords r ws).words r').size = (ln.words r').size := by
  by_cases heq : r' = r
  · subst heq
    rw [Execution.Lane.words_withWords, h]
  · rw [Execution.Lane.words_withWords_ne heq]

/-- The bases are there, no variable hides them, and the stack pointer counts `n` words. -/
structure Framed (s : Execution.State) (n : Nat) : Prop extends Based s where
  hidden : ∀ v ∈ privates, s.vars.lookup v.name = none
  sp : s.vars.lookup spVar = some (.ofU32 n.toUInt32)

theorem Framed.withWords {s : Execution.State} {n : Nat} (h : Framed s n) {r : Region}
    {ws : Array UInt32} (hsize : ws.size = (s.lane.words r).size) :
    Framed (s.withWords r ws) n :=
  ⟨h.toBased.of_sizes rfl (Execution.Lane.index_withWords ..) (size_withWords hsize), h.hidden,
    h.sp⟩

theorem Framed.beside {s s' : Execution.State} {n : Nat} (h : Framed s n) (hb : Beside s s') :
    Framed s' n := by
  obtain ⟨ws, hsize, hlane⟩ := hb.lane
  refine ⟨h.toBased.of_sizes hb.privates ?_ ?_, fun v hv => ?_, ?_⟩
  · rw [hlane, Execution.Lane.index_withWords]
  · rw [hlane]; exact size_withWords hsize
  · rw [hb.vars _ (not_isWork_of_mem_privates hv)]; exact h.hidden v hv
  · rw [hb.vars _ not_isWork_spVar]; exact h.sp

section Places

variable {l : Layout} {s : Execution.State} {n : Nat}

theorem Framed.eval_header (h : Framed s n) :
    Execution.eval l s (.var headerBase) = .ok (.ofU32 (s.lane.base .stack)) :=
  Execution.State.lookup_of_privates (h.hidden ⟨headerBase, .u32⟩ (by decide)) h.header

/-- The place of the stack pointer. -/
theorem Framed.eval_top (h : Framed s n) :
    Execution.eval l s (.binary .add (.var dataBase) (.var spVar))
      = .ok (.ofU32 (s.lane.base .stack + 2 + n.toUInt32)) :=
  Execution.eval_sum
    (Execution.State.lookup_of_privates (h.hidden ⟨dataBase, .u32⟩ (by decide)) h.data)
    (Execution.State.lookup_of_vars h.sp)

theorem Framed.locate_data (h : Framed s n) {j : Nat} (hj : j < (s.lane.words .stack).size)
    {idx : UInt32} (hidx : idx = s.lane.base .stack + j.toUInt32) :
    s.lane.locate stackBuffer idx = .ok (.stack, j) :=
  Execution.Lane.locate_eq (h.addressable .stack) rfl hj hidx

theorem Framed.locate_header (h : Framed s n) (hsize : 0 < (s.lane.words .stack).size) :
    s.lane.locate stackBuffer (s.lane.base .stack) = .ok (.stack, 0) :=
  h.locate_data hsize (UInt32.add_zero _).symm

theorem toUInt32_add (a b : Nat) : (a + b).toUInt32 = a.toUInt32 + b.toUInt32 :=
  UInt32.ofNat_add a b

/-- The words above the stack pointer. -/
theorem placesAt_dataWord (h : Framed s n) {off k : Nat}
    (hk : LaneStack.headerWords + n + off + k ≤ (s.lane.words .stack).size) :
    PlacesAt l s stackBuffer .stack (dataWord off) (LaneStack.headerWords + n + off) k := by
  intro ws hsize j hj
  have h' := h.withWords hsize
  refine ⟨_, Execution.eval_offset h'.eval_top _, h'.locate_data ?_ ?_⟩
  · rw [Execution.State.lane_withWords, Execution.Lane.words_withWords, hsize]; omega
  · change _ + 2 + n.toUInt32 + (off + j).toUInt32 = _
    rw [Nat.add_assoc, toUInt32_add (LaneStack.headerWords + n), toUInt32_add _ n,
      ← UInt32.add_assoc, ← UInt32.add_assoc]
    rfl

/-- The words of the room below the block number under the stack pointer. -/
theorem placesAt_resultWord (h : Framed s n) {room off k : Nat} (hroom : room + 1 ≤ n)
    (hk : off + k ≤ room) (hn : LaneStack.headerWords + n ≤ (s.lane.words .stack).size) :
    PlacesAt l s stackBuffer .stack (BlockContext.resultWord room off)
      (LaneStack.headerWords + (n - 1 - room) + off) k := by
  intro ws hsize j hj
  have h' := h.withWords hsize
  obtain ⟨m, rfl⟩ : ∃ m, n = m + (1 + room) := ⟨n - (1 + room), by omega⟩
  have hm : m + (1 + room) - 1 - room = m := by omega
  rw [hm]
  have hsub : Execution.eval l (s.withWords .stack ws)
      (.binary .sub (.binary .add (.var dataBase) (.var spVar)) (.count (1 + room)))
      = .ok (.ofU32 ((s.withWords .stack ws).lane.base .stack + 2 + m.toUInt32)) := by
    rw [Execution.eval, h'.eval_top]
    change Except.ok (Datum.ofU32 (_ + 2 + (m + (1 + room)).toUInt32 - (1 + room).toUInt32)) = _
    rw [toUInt32_add m, ← UInt32.add_assoc, UInt32.add_sub_cancel]
  refine ⟨_, Execution.eval_offset hsub _, h'.locate_data ?_ ?_⟩
  · rw [Execution.State.lane_withWords, Execution.Lane.words_withWords, hsize]; omega
  · change _ + 2 + m.toUInt32 + (off + j).toUInt32 = _
    rw [Nat.add_assoc, toUInt32_add (LaneStack.headerWords + m), toUInt32_add _ m,
      ← UInt32.add_assoc, ← UInt32.add_assoc]
    rfl

end Places

/-! ## The stack pointer -/

/-- An assignment to the stack pointer. -/
theorem Framed.assign_sp {s : Execution.State} {n : Nat} (h : Framed s n) (env : Env)
    {e : Shader.Expr} {m : Nat} (he : Execution.eval env.exe.layout s e = .ok (.ofU32 m.toUInt32)) :
    ∃ vars, meaning env [.assign spVar e] s = some (.ok .next, { s with vars })
      ∧ Framed { s with vars } m ∧ ∀ x, x ≠ spVar → vars.lookup x = s.vars.lookup x := by
  obtain ⟨vars, hassign, hvars⟩ := Execution.State.assign?_of_lookup h.sp (.ofU32 m.toUInt32)
  refine ⟨vars, ?_, ⟨h.toBased.of_sizes rfl rfl (fun _ => rfl), fun v hv => ?_, ?_⟩, fun x hx => ?_⟩
  · rw [Execution.meaning_singleton, Execution.stmtMeaning_assign he hassign]
  · have hne : v.name ≠ spVar := by
      intro heq
      have hsome := h.hidden v hv
      rw [heq, h.sp] at hsome
      cases hsome
    change vars.lookup v.name = none
    rw [hvars, if_neg hne]
    exact h.hidden v hv
  · change vars.lookup spVar = _
    rw [hvars, if_pos rfl]
  · rw [hvars, if_neg hx]

/-- Writing the stack pointer back to the header. -/
theorem meaning_writeSp {s : Execution.State} {n : Nat} (h : Framed s n) (env : Env)
    (hsize : 0 < (s.lane.words .stack).size) :
    meaning env [writeSp] s = some (.ok .next, s.withWords .stack
      ((s.lane.words .stack).setIfInBounds 0 n.toUInt32)) := by
  have hsp : Execution.eval env.exe.layout s (.var spVar) = .ok (.ofU32 n.toUInt32) :=
    Execution.State.lookup_of_vars h.sp
  rw [writeSp, Execution.meaning_singleton,
    Execution.stmtMeaning_store h.eval_header hsp (h.locate_header hsize),
    Execution.Lane.setWord_eq]
  rfl

/-- Reading the stack pointer from the header. -/
theorem meaning_readSp {s : Execution.State} {n : Nat} (h : Framed s n) (env : Env) {m : Nat}
    {back : List UInt32} (hwords : (s.lane.words .stack).toList = m.toUInt32 :: back) :
    ∃ vars, meaning env [readSp] s = some (.ok .next, { s with vars })
      ∧ Framed { s with vars } m ∧ ∀ x, x ≠ spVar → vars.lookup x = s.vars.lookup x := by
  have hsize : 0 < (s.lane.words .stack).size := by
    rw [← Array.length_toList, hwords]
    exact Nat.succ_pos _
  refine h.assign_sp env ?_
  rw [Execution.eval, h.eval_header]
  change Execution.State.load s stackBuffer (s.lane.base .stack) = _
  rw [Execution.State.load, h.locate_header hsize]
  change Except.ok (Datum.ofU32 ((s.lane.words .stack).getD 0 0)) = _
  rw [Array.getD_eq_getD_getElem?, ← Array.getElem?_toList, hwords]
  rfl

/-- Taking words off the stack. -/
theorem meaning_lowerSp {s : Execution.State} {n k : Nat} (h : Framed s (n + k)) (env : Env) :
    ∃ vars, meaning env [lowerSp k] s = some (.ok .next, { s with vars })
      ∧ Framed { s with vars } n ∧ ∀ x, x ≠ spVar → vars.lookup x = s.vars.lookup x := by
  refine h.assign_sp env ?_
  have hsp : Execution.eval env.exe.layout s (.var spVar) = .ok (.ofU32 (n + k).toUInt32) :=
    Execution.State.lookup_of_vars h.sp
  rw [Execution.eval, hsp]
  change Except.ok (Datum.ofU32 ((n + k).toUInt32 - k.toUInt32)) = _
  rw [toUInt32_add, UInt32.add_sub_cancel]

/-! ## Pushing -/

theorem writeAt_append (xs : Array UInt32) (i : Nat) (ws us : List UInt32) :
    LaneStack.writeAt xs i (ws ++ us)
      = LaneStack.writeAt (LaneStack.writeAt xs i ws) (i + ws.length) us := by
  induction ws generalizing xs i with
  | nil => rfl
  | cons w ws ih =>
      rw [List.cons_append, LaneStack.writeAt, LaneStack.writeAt, ih, List.length_cons,
        Nat.add_right_comm, Nat.add_assoc]

/-- Writing the words that are there changes nothing. -/
theorem writeAt_wordsFrom {xs : Array UInt32} {i n : Nat} (h : i + n ≤ xs.size) :
    LaneStack.writeAt xs i (wordsFrom xs i n) = xs := by
  have hlen := Execution.length_wordsFrom xs i n
  rw [← Array.toList_inj, Execution.toList_writeAt (by rw [hlen]; exact h), hlen,
    Execution.wordsFrom_eq h, ← List.drop_drop, List.append_assoc, List.take_append_drop,
    List.take_append_drop]

/-- The statements of a push write the words above a stack pointer that counts `n`. -/
structure Push.Writes (env : Env) (s : Execution.State) (n : Nat) (p : Push) (ws : List UInt32) :
    Prop where
  size : ws.length = p.size
  run : meaning env p.stmts s = some (.ok .next, s.withWords .stack
    (LaneStack.writeAt (s.lane.words .stack) (LaneStack.headerWords + n) ws))

namespace Push.Writes

variable {env : Env} {s : Execution.State} {n : Nat} {p : Push} {ws : List UInt32}

theorem empty (env : Env) (s : Execution.State) (n : Nat) : Writes env s n {} [] := by
  refine ⟨rfl, ?_⟩
  rw [LaneStack.writeAt, Execution.State.withWords_words]
  exact Execution.meaning_nil

/-- Statements that write on from where a push ends. -/
theorem extend (h : Writes env s n p ws) (stmts : List Shader.Stmt) (us : List UInt32)
    (hrun : ∀ xs, xs.size = (s.lane.words .stack).size →
      meaning env stmts (s.withWords .stack xs) = some (.ok .next, s.withWords .stack
        (LaneStack.writeAt xs (LaneStack.headerWords + n + p.size) us))) :
    Writes env s n ⟨p.stmts ++ stmts, p.size + us.length⟩ (ws ++ us) := by
  refine ⟨by rw [List.length_append, h.size], ?_⟩
  rw [Execution.meaning_append_next h.run, hrun _ (Execution.size_writeAt ..), writeAt_append, h.size]

theorem value (h : Writes env s n p ws) (hs : Framed s n) {t : ValueType} (ht : t.isKnown = true)
    (hfit : LaneStack.headerWords + n + p.size + env.exe.layout.words t
      ≤ (s.lane.words .stack).size) {v : Shader.Expr} {d : Datum}
    (hv : ∀ us : Array UInt32, us.size = (s.lane.words .stack).size →
      Execution.eval env.exe.layout (s.withWords .stack us) v = .ok d) :
    Writes env s n (p.value env.exe.layout v t) (ws ++ d.stored env.exe.layout t) := by
  have hsize := Datum.length_stored env.exe.layout t d
  have hext := h.extend (storeValue env.exe.layout stackBuffer (dataWord p.size) v t)
    (d.stored env.exe.layout t) fun xs hxs => by
      have hplaces : PlacesAt env.exe.layout (s.withWords .stack xs) stackBuffer .stack
          (dataWord p.size) (LaneStack.headerWords + n + p.size) (env.exe.layout.words t) :=
        (placesAt_dataWord hs hfit).withWords hxs
      rw [Execution.meaning_storeValue ht hplaces (d := d)]
      · rw [Execution.State.withWords_withWords, Execution.State.lane_withWords,
          Execution.Lane.words_withWords]
      · intro us hus
        rw [Execution.State.lane_withWords, Execution.Lane.words_withWords] at hus
        rw [Execution.State.withWords_withWords]
        exact hv us (hus.trans hxs)
  rw [hsize] at hext
  exact hext

theorem blockId (h : Writes env s n p ws) (hs : Framed s n)
    (hfit : LaneStack.headerWords + n + p.size + 1 ≤ (s.lane.words .stack).size) (id : BlockId) :
    Writes env s n (p.blockId id) (ws ++ [id.val]) := by
  refine h.extend _ [id.val] fun xs hxs => ?_
  obtain ⟨i, hi, hat⟩ := (placesAt_dataWord (l := env.exe.layout) hs hfit).withWords hxs xs
    (by rw [Execution.State.lane_withWords, Execution.Lane.words_withWords]) 0 Nat.one_pos
  rw [Execution.State.withWords_withWords] at hi hat
  have hid : Execution.eval env.exe.layout (s.withWords .stack xs) (.u32 id.val)
      = .ok (.ofU32 id.val) := by
    rw [Shader.Expr.u32, Execution.eval]; rfl
  change Execution.eval _ _ (dataAt p.size.toUInt32) = _ at hi
  rw [Execution.meaning_singleton, Execution.stmtMeaning_store hi hid hat,
    Execution.Lane.setWord_eq, Execution.State.lane_withWords, Execution.Lane.words_withWords]
  rfl

/-- Room keeps the words that are there. -/
theorem reserve (h : Writes env s n p ws) {k : Nat}
    (hfit : LaneStack.headerWords + n + p.size + k ≤ (s.lane.words .stack).size) :
    Writes env s n (p.reserve k)
      (ws ++ wordsFrom (s.lane.words .stack) (LaneStack.headerWords + n + p.size) k) := by
  let start := LaneStack.headerWords + n + p.size
  let written := LaneStack.writeAt (s.lane.words .stack) (LaneStack.headerWords + n) ws
  have hsize : written.size = (s.lane.words .stack).size := Execution.size_writeAt ..
  have hroom : wordsFrom (s.lane.words .stack) start k = wordsFrom written start k := by
    rw [Execution.wordsFrom_eq hfit, Execution.wordsFrom_eq (by rw [hsize]; exact hfit),
      Execution.toList_writeAt (by rw [h.size]; omega), h.size, List.drop_left' ?_]
    rw [List.length_append, List.length_take, Array.length_toList, h.size]
    exact congrArg (· + _) (Nat.min_eq_left (by omega))
  refine ⟨?_, ?_⟩
  · rw [List.length_append, h.size, Execution.length_wordsFrom]; rfl
  · rw [writeAt_append, h.size, hroom, writeAt_wordsFrom (by rw [hsize]; exact hfit)]
    exact h.run

end Push.Writes

/-- A push with the values of variables on top. -/
def Push.values (l : Layout) (p : Push) (xs : List (String × ValueType)) : Push :=
  xs.foldl (fun p x => p.value l (.var x.1) x.2) p

theorem Push.values_append (l : Layout) (p : Push) (xs ys : List (String × ValueType)) :
    p.values l (xs ++ ys) = (p.values l xs).values l ys := List.foldl_append

theorem Push.size_values (l : Layout) (p : Push) (xs : List (String × ValueType)) :
    (p.values l xs).size = p.size + l.sizeOf (xs.map (·.2)) := by
  induction xs generalizing p with
  | nil => rfl
  | cons x xs ih =>
      change Push.size (Push.values l (p.value l (.var x.1) x.2) xs) = _
      rw [ih, List.map_cons, Layout.sizeOf_cons, ← Nat.add_assoc]
      rfl

/-- The variables hold the values that a push takes from them. -/
abbrev Provides (s : Execution.State) (xs : List (String × ValueType)) (data : List Datum) : Prop :=
  List.Forall₂ (fun x d => s.vars.lookup x.1 = some d) xs data

theorem Push.Writes.values {env : Env} {s : Execution.State} {n : Nat} {p : Push}
    {ws : List UInt32} (h : Writes env s n p ws) (hs : Framed s n)
    {xs : List (String × ValueType)} {data : List Datum} (hknown : ∀ x ∈ xs, x.2.isKnown = true)
    (hdata : Provides s xs data)
    (hfit : LaneStack.headerWords + n + p.size + env.exe.layout.sizeOf (xs.map (·.2))
      ≤ (s.lane.words .stack).size) :
    Writes env s n (p.values env.exe.layout xs)
      (ws ++ storedAll env.exe.layout (xs.map (·.2)) data) := by
  induction hdata generalizing p ws with
  | nil =>
      rw [List.map_nil]
      exact (List.append_nil ws).symm ▸ h
  | @cons x d xs data hd _ ih =>
      rw [List.map_cons, Layout.sizeOf_cons] at hfit
      have hval := h.value hs (hknown x (List.mem_cons_self ..)) (by omega)
        (v := .var x.1) (d := d) fun us _ => Execution.State.lookup_of_vars hd
      have hrest := ih hval (fun y hy => hknown y (List.mem_cons_of_mem _ hy)) (by
        change _ + (p.size + env.exe.layout.words x.2) + _ ≤ _
        omega)
      rw [List.map_cons, Execution.storedAll_cons, ← List.append_assoc]
      exact hrest

/-! ## The end of a push -/

section Finish

variable {env : Env} {s : Execution.State} {n : Nat} {p : Push} {limit : UInt32}

theorem eval_tooMuch (hs : Framed s n) (hn : n + p.size < 2 ^ 32) :
    Execution.eval env.exe.layout s
        (.binary .gt (.binary .add (.var spVar) (.count p.size)) (.u32 limit))
      = .ok (.ofBool (decide (limit.toNat < n + p.size))) := by
  have hsum : Execution.eval env.exe.layout s (.binary .add (.var spVar) (.count p.size))
      = .ok (.ofU32 (n + p.size).toUInt32) := by
    rw [toUInt32_add]
    exact Execution.eval_sum (Execution.State.lookup_of_vars hs.sp) rfl
  rw [Execution.eval, hsum]
  change Except.ok (Datum.ofBool (decide (limit < (n + p.size).toUInt32))) = _
  have hiff : limit < (n + p.size).toUInt32 ↔ limit.toNat < n + p.size := by
    rw [UInt32.lt_iff_toNat_lt, Execution.toNat_toUInt32 hn]
  simp only [hiff]

/-- A push that fits writes its words and raises the stack pointer. -/
theorem Push.Writes.finish {ws : List UInt32} (h : p.Writes env s n ws) (hs : Framed s n)
    (hfit : n + p.size ≤ limit.toNat) :
    ∃ vars, meaning env (p.finish limit) s = some (.ok .next,
        { s.withWords .stack (LaneStack.writeAt (s.lane.words .stack) (LaneStack.headerWords + n) ws)
          with vars })
      ∧ Framed { s.withWords .stack
          (LaneStack.writeAt (s.lane.words .stack) (LaneStack.headerWords + n) ws) with vars }
          (n + p.size)
      ∧ ∀ x, x ≠ spVar → vars.lookup x = s.vars.lookup x := by
  have hlt := limit.toNat_lt
  have hs' := hs.withWords (r := .stack)
    (Execution.size_writeAt (s.lane.words .stack) (LaneStack.headerWords + n) ws)
  have hraise : Execution.eval env.exe.layout (s.withWords .stack
      (LaneStack.writeAt (s.lane.words .stack) (LaneStack.headerWords + n) ws))
      (.binary .add (.var spVar) (.count p.size)) = .ok (.ofU32 (n + p.size).toUInt32) := by
    rw [toUInt32_add]
    exact Execution.eval_sum (Execution.State.lookup_of_vars hs'.sp) rfl
  obtain ⟨vars, hrun, hframed, hvars⟩ := hs'.assign_sp env hraise
  refine ⟨vars, ?_, hframed, hvars⟩
  rw [Push.finish, List.cons_append]
  refine (Execution.meaning_cons_next ?_).trans ((Execution.meaning_append_next h.run).trans hrun)
  rw [Execution.stmtMeaning_ifElse (eval_tooMuch hs (by omega)),
    decide_eq_false (by omega), if_neg (by decide), Execution.meaning_nil]

/-- A push that does not fit traps before it writes anything. -/
theorem meaning_finish_overflow (hs : Framed s n) (hfit : limit.toNat < n + p.size)
    (hn : n + p.size < 2 ^ 32) :
    meaning env (p.finish limit) s
      = some (.error (.trap .stackOverflow), s.trapped .stackOverflow) := by
  rw [Push.finish, List.cons_append, Execution.meaning_cons,
    Execution.stmtMeaning_ifElse (eval_tooMuch hs hn), decide_eq_true hfit, if_pos (by decide),
    Execution.meaning_singleton, Execution.stmtMeaning_trap]
  rfl

end Finish

/-! ## Popping -/

/-- The code that reads values from above the stack pointer into variables. -/
def loadCode (l : Layout) (start : Nat) (names : List String) (types : List ValueType) :
    List Shader.Stmt :=
  (names.zip (types.zip (l.offsetsFrom start types))).map fun (name, t, off) =>
    .assign name (loadValue l stackBuffer (dataWord off) t)

/-- A value read from above the stack pointer is the one that was stored there. -/
theorem eval_stored {l : Layout} {s : Execution.State} {n : Nat} (hs : Framed s n) {t : ValueType}
    (ht : t.isKnown = true) {d : Datum} (hd : d.Fits l t) {start : Nat} {front back : List UInt32}
    (hwords : (s.lane.words .stack).toList = front ++ d.stored l t ++ back)
    (hfront : front.length = LaneStack.headerWords + n + start) :
    Execution.eval l s (loadValue l stackBuffer (dataWord start) t) = .ok d := by
  have hlen := Datum.length_stored l t d
  have hsize : (s.lane.words .stack).size = front.length + l.words t + back.length := by
    rw [← Array.length_toList, hwords, List.length_append, List.length_append, hlen]
  rw [Execution.eval_loadValue ht (placesAt_dataWord hs (by omega)),
    Execution.wordsFrom_of_append hwords hfront hlen]
  exact congrArg Except.ok hd

/-- Values are read into variables one after the other. -/
theorem meaning_loadCode (env : Env) {names : List String} {types : List ValueType}
    {data : List Datum} {s : Execution.State} {n start : Nat} {front back : List UInt32}
    (hs : Framed s n) (hknown : AllKnown types) (hfits : FitsAll env.exe.layout types data)
    (hlen : names.length = types.length) (hnodup : names.Nodup)
    (hwork : ∀ x ∈ names, IsWork x)
    (hpresent : ∀ x ∈ names, (s.vars.lookup x).isSome = true)
    (hwords : (s.lane.words .stack).toList
      = front ++ storedAll env.exe.layout types data ++ back)
    (hfront : front.length = LaneStack.headerWords + n + start) :
    ∃ vars, meaning env (loadCode env.exe.layout start names types) s
        = some (.ok .next, { s with vars })
      ∧ Beside s { s with vars } ∧ (∀ x, x ∉ names → vars.lookup x = s.vars.lookup x)
      ∧ Stand { s with vars } names data := by
  induction hfits generalizing names s start front with
  | nil =>
      obtain rfl := List.length_eq_zero_iff.mp hlen
      exact ⟨s.vars, Execution.meaning_nil, .refl s, fun _ _ => rfl, .nil⟩
  | @cons t d types data hd hfits ih =>
      cases names with
      | nil => cases hlen
      | cons x names =>
          rw [Execution.storedAll_cons, ← List.append_assoc, List.append_assoc] at hwords
          obtain ⟨hx, hnodup⟩ := List.nodup_cons.mp hnodup
          obtain ⟨s₁, hassign, hbeside, hlane, hvars₁⟩ := exists_assign
            (hpresent x (List.mem_cons_self ..)) (hwork x (List.mem_cons_self ..)) d
          have hstate : s₁ = { s with vars := s₁.vars } := by
            rw [← hbeside.privates, ← hlane]
          have hs₁ : Framed s₁ n := hs.beside hbeside
          have hfront₁ : (front ++ d.stored env.exe.layout t).length
              = LaneStack.headerWords + n + (start + env.exe.layout.words t) := by
            rw [List.length_append, hfront, Datum.length_stored]; omega
          obtain ⟨vars, hrun, hbeside', hother, hstand⟩ := ih hs₁
            (fun u hu => hknown u (List.mem_cons_of_mem _ hu)) (Nat.succ.inj hlen) hnodup
            (fun y hy => hwork y (List.mem_cons_of_mem _ hy))
            (fun y hy => by
              rw [hbeside.present]; exact hpresent y (List.mem_cons_of_mem _ hy))
            (by rw [hlane, hwords, List.append_assoc (front ++ _)]) hfront₁
          have hend : ({ s₁ with vars } : Execution.State) = { s with vars } := by rw [hstate]
          rw [hend] at hrun hbeside' hstand
          refine ⟨vars, ?_, hbeside.trans hbeside', fun y hy => ?_, .cons ?_ hstand⟩
          · have heval := eval_stored hs (hknown t (List.mem_cons_self ..)) hd hwords hfront
            exact (Execution.meaning_cons_next (Execution.stmtMeaning_assign heval hassign)).trans
              hrun
          · rw [List.mem_cons, not_or] at hy
            rw [hother y hy.2, hvars₁, if_neg hy.1]
          · change vars.lookup x = some d
            rw [hother x hx, hvars₁, if_pos rfl]

end Emit

end WasmShader
