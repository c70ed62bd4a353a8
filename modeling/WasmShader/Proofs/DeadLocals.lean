import WasmShader.Proofs.LivePaths
import WasmShader.Proofs.SplitMeaning

/-!
# Dead locals do not matter

A run from a block on depends on those locals only that are live there. Two runs that start with
the same on these go through the same blocks with the same operands, and keep to the same on what
is live where they are: a block reads first what is live on its entry, and what is live behind it
is live on its entry too unless the block is sure to write it. Below the top level of a block
writes are not sure, so there only the reads are followed.

A frame saves what is live on entry to its block, so it may stand for all locals; that of the
first block saves the parameters, which is all that a function starts with, and no run comes back
to that block.
-/

namespace WasmShader

open Execution (Datum)

namespace Structured

variable {σ α β : Type}

/-! ## Coupled evaluations -/

/-- Ends that cannot be told apart: of those that stop, the locals do not count. -/
def EndsAlike (Q : α → Store σ → Store σ → Prop) :
    Ending (Store σ) α → Ending (Store σ) α → Prop
  | (.ok a, st), (.ok b, st') => a = b ∧ Q a st st'
  | (.error e, st), (.error e', st') => e = e' ∧ st.shared = st'.shared
  | _, _ => False

/-- From states that are related, the evaluation comes to the same end in states that are related
again, or to none in both. -/
def Coupled (P : Store σ → Store σ → Prop) (x : Eval σ α) (Q : α → Store σ → Store σ → Prop) :
    Prop :=
  ∀ st st', P st st' → Option.Rel (EndsAlike Q) (x st) (x st')

/-- The states hold the same locals of the set, out of `n`, and share the same. -/
structure SameOn (n : Nat) (S : Set Nat) (st st' : Store σ) : Prop where
  length : st.locals.length = n
  length' : st'.locals.length = n
  locals : ∀ x ∈ S, st.locals[x]? = st'.locals[x]?
  shared : st.shared = st'.shared

section Coupled

variable {P : Store σ → Store σ → Prop} {Q R : α → Store σ → Store σ → Prop} {n : Nat}
  {S T : Set Nat}

theorem SameOn.mono {st st' : Store σ} (h : SameOn n S st st') (hsub : T ⊆ S) :
    SameOn n T st st' :=
  ⟨h.length, h.length', fun x hx => h.locals x (hsub hx), h.shared⟩

theorem EndsAlike.mono {a b : Ending (Store σ) α} (h : EndsAlike Q a b)
    (hQ : ∀ v st st', Q v st st' → R v st st') : EndsAlike R a b := by
  match a, b, h with
  | (.ok a, st), (.ok b, st'), ⟨heq, hst⟩ => exact ⟨heq, hQ a st st' hst⟩
  | (.error e, st), (.error e', st'), h => exact h

theorem Coupled.mono {x : Eval σ α} (h : Coupled P x Q)
    (hQ : ∀ v st st', Q v st st' → R v st st') : Coupled P x R :=
  fun st st' hst => (h st st' hst).mono fun _ _ hends => hends.mono hQ

theorem Coupled.pure {a : α} (h : ∀ st st', P st st' → Q a st st') : Coupled P (Pure.pure a) Q :=
  fun st st' hst => .some ⟨rfl, h st st' hst⟩

theorem coupled_pure (a : α) : Coupled P (Pure.pure a) fun _ => P := .pure fun _ _ h => h

theorem Coupled.bind {x : Eval σ α} {k : α → Eval σ β} {R : β → Store σ → Store σ → Prop}
    (h : Coupled P x Q) (hk : ∀ a, Coupled (Q a) (k a) R) : Coupled P (x >>= k) R := by
  intro st st' hst
  rw [bind_apply, bind_apply]
  refine (h st st' hst).bind fun a b hends => ?_
  match a, b, hends with
  | (.ok a, st), (.ok b, st'), ⟨heq, hQ⟩ =>
      cases heq
      exact hk a st st' hQ
  | (.error e, st), (.error e', st'), hends => exact .some hends

theorem Coupled.ite {c : Prop} [Decidable c] {x y : Eval σ α} (hx : Coupled P x Q)
    (hy : Coupled P y Q) : Coupled P (if c then x else y) Q := by
  split
  · exact hx
  · exact hy

theorem Coupled.throw {e : Stop} (h : ∀ st st', P st st' → st.shared = st'.shared) :
    Coupled P (throwThe Stop e : Eval σ α) Q :=
  fun st st' hst => .some ⟨rfl, h st st' hst⟩

theorem coupled_throw (e : Stop) : Coupled (SameOn n S) (throw e : Eval σ α) Q :=
  .throw fun _ _ h => h.shared

/-! ## Single steps -/

theorem coupled_split (k : Nat) (stack : List Datum) :
    Coupled (SameOn n S) (split k stack : Eval σ _) fun _ => SameOn n S :=
  .ite (coupled_throw _) (coupled_pure _)

theorem coupled_popOne (stack : List Datum) :
    Coupled (SameOn n S) (popOne stack : Eval σ _) fun _ => SameOn n S := by
  refine .bind (coupled_split 1 stack) fun popped => ?_
  split
  · exact coupled_pure _
  · exact coupled_throw _

theorem coupled_ask (oracle : Oracle σ) (r : Request) (args : List Datum) :
    Coupled (SameOn n S) (ask oracle r args) fun _ => SameOn n S := by
  intro st st' h
  rw [ask, ask, h.shared]
  cases oracle r args st'.shared with
  | none => exact .none
  | some answered =>
      obtain ⟨answer, shared⟩ := answered
      cases answer with
      | error e => exact .some ⟨rfl, rfl⟩
      | ok results => exact .some ⟨rfl, h.length, h.length', h.locals, rfl⟩

theorem coupled_askTop (oracle : Oracle σ) (r : Request) (k : Nat) (stack : List Datum) :
    Coupled (SameOn n S) (askTop oracle r k stack) fun _ => SameOn n S :=
  .bind (coupled_split k stack) fun _ =>
    .bind (coupled_ask oracle r _) fun _ => coupled_pure _

theorem coupled_getLocal {idx : Nat} (hidx : idx ∈ S) :
    Coupled (SameOn n S) (getLocal idx : Eval σ _) fun _ => SameOn n S := by
  intro st st' h
  have hget : (get : Eval σ _) st = some (.ok st, st) := rfl
  have hget' : (get : Eval σ _) st' = some (.ok st', st') := rfl
  rw [getLocal, bind_of_ok hget, bind_of_ok hget', h.locals idx hidx]
  cases st'.locals[idx]? with
  | some d => exact .some ⟨rfl, h⟩
  | none => exact .some ⟨rfl, h.shared⟩

/-- What is written is the same from then on. -/
theorem coupled_setLocal (idx : Nat) (d : Datum) :
    Coupled (SameOn n S) (setLocal idx d : Eval σ _) fun _ => SameOn n (insert idx S) := by
  intro st st' h
  refine .some ⟨rfl, ?_, ?_, fun x hx => ?_, h.shared⟩
  · exact List.length_set.trans h.length
  · exact List.length_set.trans h.length'
  · change (st.locals.set idx d)[x]? = (st'.locals.set idx d)[x]?
    rw [List.getElem?_set, List.getElem?_set, h.length, h.length']
    by_cases hidx : idx = x
    · rw [if_pos hidx, if_pos hidx]
    · rw [if_neg hidx, if_neg hidx]
      exact h.locals x (Set.mem_of_mem_insert_of_ne hx (Ne.symm hidx))

theorem coupled_getGlobal (idx : Nat) :
    Coupled (SameOn n S) (getGlobal idx : Eval σ _) fun _ => SameOn n S := by
  intro st st' h
  have hget : (get : Eval σ _) st = some (.ok st, st) := rfl
  have hget' : (get : Eval σ _) st' = some (.ok st', st') := rfl
  rw [getGlobal, bind_of_ok hget, bind_of_ok hget', h.shared]
  cases st'.shared.globals[idx]? with
  | some d => exact .some ⟨rfl, h⟩
  | none => exact .some ⟨rfl, h.shared⟩

theorem coupled_setGlobal (idx : Nat) (d : Datum) :
    Coupled (SameOn n S) (setGlobal idx d : Eval σ _) fun _ => SameOn n S := by
  rintro ⟨locals, shared⟩ ⟨locals', shared'⟩ h
  obtain rfl : shared = shared' := h.shared
  exact .some ⟨rfl, h.length, h.length', h.locals, rfl⟩

end Coupled

/-! ## Code -/

section Code

variable {p : Program} {l : Layout} {oracle : Oracle σ} {n : Nat} {S : Set Nat}

/-- Instructions do not depend on locals that they do not read. -/
theorem evalInstr_coupled {i : Instr} (h : ∀ x, i.Reads x → x ∈ S) (stack : List Datum) :
    Coupled (SameOn n S) (evalInstr p l oracle i stack) fun _ => SameOn n S := by
  have hset (idx : Nat) (d : Datum) :
      Coupled (SameOn n S) (setLocal idx d : Eval σ _) fun _ => SameOn n S :=
    (coupled_setLocal idx d).mono fun _ _ _ hst => hst.mono (Set.subset_insert idx S)
  have hnext {α : Type} {x : Eval σ α} {k : α → Flow}
      (hx : Coupled (SameOn n S) x fun _ => SameOn n S) :
      Coupled (SameOn n S) (x >>= fun a => Pure.pure (k a)) fun _ => SameOn n S :=
    .bind hx fun _ => coupled_pure _
  unfold evalInstr
  dsimp only
  split
  -- Most instructions only look at the operands, or ask.
  all_goals first
    | exact coupled_pure _
    | exact coupled_throw _
    | exact hnext (coupled_popOne stack)
    | exact coupled_askTop _ _ _ _
    | skip
  case h_1 =>
    refine .bind (coupled_split _ stack) fun operands => ?_
    split
    · exact coupled_pure _
    · exact coupled_throw _
    · exact coupled_throw _
  case h_14 =>
    refine .bind (coupled_split 3 stack) fun operands => ?_
    split
    · exact coupled_pure _
    · exact coupled_throw _
  case h_15 idx hop himm => exact hnext (coupled_getLocal (h _ ⟨hop, idx, himm, rfl⟩))
  case h_16 | h_17 =>
    exact .bind (coupled_popOne stack) fun _ => hnext (hset _ _)
  case h_18 => exact hnext (coupled_getGlobal _)
  case h_19 =>
    exact .bind (coupled_popOne stack) fun _ => hnext (coupled_setGlobal _ _)
  case h_20 | h_21 =>
    split
    · exact coupled_askTop _ _ _ _
    · exact coupled_throw _

/-- At the top level an instruction leaves the same in what it writes. -/
theorem evalInstr_writes {i : Instr} (h : ∀ x, i.Reads x → x ∈ S) (stack : List Datum) :
    Coupled (SameOn n S) (evalInstr p l oracle i stack)
      fun _ => SameOn n (S ∪ { x | i.Writes x }) := by
  have hwritten {idx : UInt32} (himm : i.imm = .localVar idx) :
      S ∪ { x | i.Writes x } ⊆ insert idx.toNat S := by
    rintro x (hx | ⟨-, idx', himm', rfl⟩)
    · exact Set.mem_insert_of_mem _ hx
    · cases himm.symm.trans himm'
      exact Set.mem_insert _ _
  by_cases hwrites : ∃ x, i.Writes x
  · obtain ⟨_, hop, idx, himm, -⟩ := hwrites
    rcases hop with hop | hop
    all_goals
      unfold evalInstr
      rw [hop, himm]
      refine .bind (coupled_popOne stack) fun popped => .bind ((coupled_setLocal idx.toNat
        popped.2).mono fun _ _ _ hst => hst.mono (hwritten himm)) fun _ => coupled_pure _
  · have hnone : S ∪ { x | i.Writes x } = S := by
      rw [Set.union_eq_left]
      exact fun x hx => absurd ⟨x, hx⟩ hwrites
    rw [hnone]
    exact evalInstr_coupled h stack

theorem evalLoop_coupled {k : Nat} {body : List Datum → Eval σ Flow}
    (h : ∀ args, Coupled (SameOn n S) (body args) fun _ => SameOn n S) (args : List Datum) :
    Coupled (SameOn n S) (evalLoop k body args) fun _ => SameOn n S := by
  intro st st' hst
  refine untilDone_rel (R := fun a b => a.1 = b.1 ∧ SameOn n S a.2 b.2) ?_ ⟨rfl, hst⟩
  rintro ⟨args, st⟩ ⟨args', st'⟩ ⟨heq, hst⟩
  obtain rfl : args = args' := heq
  refine (h args st st' hst).map fun a b hends => ?_
  match a, b, hends with
  | (.error e, st), (.error e', st'), hends => exact .inr hends
  | (.ok flow, st), (.ok flow', st'), ⟨heq, hst⟩ =>
      cases heq
      match flow with
      | .branch 0 stack => exact .inl ⟨rfl, hst⟩
      | .branch (depth + 1) stack => exact .inr ⟨rfl, hst⟩
      | .next stack => exact .inr ⟨rfl, hst⟩
      | .ret stack => exact .inr ⟨rfl, hst⟩

mutual

/-- Code does not depend on locals that no instruction of it reads. -/
theorem evalNode_coupled : (node : Node) → (∀ x, node.Reads x → x ∈ S) → (stack : List Datum) →
    Coupled (SameOn n S) (evalNode p l oracle node stack) fun _ => SameOn n S
  | .instr i, h, stack => by
      rw [evalNode]
      exact evalInstr_coupled (fun x hx => h x (Liveness.reads_instr.mpr hx)) stack
  | .block loop sig body, h, stack => by
      rw [evalNode]
      have hbody := evalSeq_coupled body fun x i hi hx => h x ⟨i, hi, hx⟩
      refine .bind (coupled_split _ stack) fun operands => .bind ?_ fun _ => coupled_pure _
      exact .ite (evalLoop_coupled hbody operands.2) (hbody operands.2)
  | .ifThen sig body, h, stack => by
      rw [evalNode]
      have hbody := evalSeq_coupled body fun x i hi hx => h x ⟨i, hi, hx⟩
      refine .bind (coupled_popOne stack) fun popped => .bind (coupled_split _ popped.1)
        fun operands => .bind ?_ fun _ => coupled_pure _
      exact .ite (hbody operands.2) (coupled_pure _)
  | .ifElse sig body alternative, h, stack => by
      rw [evalNode]
      have hbody := evalSeq_coupled body fun x i hi hx => h x ⟨i, List.mem_append_left _ hi, hx⟩
      have halternative := evalSeq_coupled alternative
        fun x i hi hx => h x ⟨i, List.mem_append_right _ hi, hx⟩
      refine .bind (coupled_popOne stack) fun popped => .bind (coupled_split _ popped.1)
        fun operands => .bind ?_ fun _ => coupled_pure _
      exact .ite (hbody operands.2) (halternative operands.2)

theorem evalSeq_coupled : (ns : List Node) →
    (∀ x, ∀ i ∈ Body.instrs ns, i.Reads x → x ∈ S) → (stack : List Datum) →
    Coupled (SameOn n S) (evalSeq p l oracle ns stack) fun _ => SameOn n S
  | [], _, stack => by
      rw [evalSeq]
      exact coupled_pure _
  | node :: ns, h, stack => by
      rw [evalSeq]
      refine .bind (evalNode_coupled node (fun x ⟨i, hi, hx⟩ =>
        h x i (List.mem_append_left _ hi) hx) stack) fun flow => ?_
      have hrest := evalSeq_coupled ns fun x i hi => h x i (List.mem_append_right _ hi)
      cases flow with
      | next stack' => exact hrest stack'
      | branch depth stack' => exact coupled_pure _
      | ret stack' => exact coupled_pure _

end

/-- A node leaves the same in what it is sure to write. -/
theorem evalNode_writes {node : Node} (h : ∀ x, node.Reads x → x ∈ S) (stack : List Datum) :
    Coupled (SameOn n S) (evalNode p l oracle node stack)
      fun _ => SameOn n (S ∪ { x | node.Writes x }) := by
  have hnested (hne : ∀ i, node ≠ .instr i) : Coupled (SameOn n S) (evalNode p l oracle node stack)
      fun _ => SameOn n (S ∪ { x | node.Writes x }) := by
    have hnone : S ∪ { x | node.Writes x } = S := by
      rw [Set.union_eq_left]
      exact fun x hx => absurd hx (Liveness.not_writes_of_ne hne)
    rw [hnone]
    exact evalNode_coupled node h stack
  cases node with
  | instr i =>
      rw [evalNode]
      simp only [Liveness.writes_instr]
      exact evalInstr_writes (fun x hx => h x (Liveness.reads_instr.mpr hx)) stack
  | block | ifThen | ifElse => exact hnested (by rintro i ⟨⟩)

/-- What control passes through depends on what it reads first only, and leaves the same in what
it is sure to write. -/
theorem evalSeq_writes {code : List Node} (h : ∀ x, Body.ReadsFirst x code → x ∈ S)
    (stack : List Datum) :
    Coupled (SameOn n S) (evalSeq p l oracle code stack) fun flow st st' =>
      st.shared = st'.shared
        ∧ ∀ stack', flow = .next stack' → SameOn n (S ∪ { x | Body.Writes x code }) st st' := by
  induction code generalizing S stack with
  | nil =>
      rw [evalSeq]
      refine .pure fun st st' hst => ⟨hst.shared, fun _ _ => hst.mono ?_⟩
      rintro x (hx | ⟨node, hnode, -⟩)
      · exact hx
      · cases hnode
  | cons node code ih =>
      rw [evalSeq]
      refine .bind (evalNode_writes (fun x hx => h x (Body.readsFirst_cons.mpr (.inl hx))) stack)
        fun flow => ?_
      cases flow with
      | next stack' =>
          have hfirst (x : Nat) (hx : Body.ReadsFirst x code) : x ∈ S ∪ { x | node.Writes x } := by
            by_cases hwrites : node.Writes x
            · exact .inr hwrites
            · exact .inl (h x (Body.readsFirst_cons.mpr (.inr ⟨hwrites, hx⟩)))
          refine (ih hfirst stack').mono fun flow st st' ⟨hshared, hst⟩ =>
            ⟨hshared, fun stack'' heq => (hst stack'' heq).mono ?_⟩
          rintro x (hx | hx)
          · exact .inl (.inl hx)
          · rcases Body.writes_cons.mp hx with hx | hx
            · exact .inl (.inr hx)
            · exact .inr hx
      | branch depth stack' => exact .pure fun _ _ hst => ⟨hst.shared, by rintro _ ⟨⟩⟩
      | ret stack' => exact .pure fun _ _ hst => ⟨hst.shared, by rintro _ ⟨⟩⟩

end Code

/-! ## Blocks -/

/-- Where control goes on behind a block is one of these. -/
def Exit.LeadsTo (targets : List Nat) : Exit → Prop
  | .goto target _ => target ∈ targets
  | .transfer _ _ next _ _ => next ∈ targets
  | .ret _ => True

section Blocks

variable {p : Program} {l : Layout} {oracle : Oracle σ} {m : Machine} {n : Nat} {S : Set Nat}

theorem exitBy_coupled (t : Terminator) (stack : List Datum) :
    Coupled (SameOn n S) (exitBy stack t : Eval σ _) fun exit st st' =>
      exit.LeadsTo t.successors ∧ SameOn n S st st' := by
  have hedge {e : Edge} (he : e ∈ t.edges) (stack : List Datum) :
      Coupled (SameOn n S) (Pure.pure (.ofEdge e stack) : Eval σ Exit) fun exit st st' =>
        exit.LeadsTo t.successors ∧ SameOn n S st st' :=
    .pure fun _ _ hst => ⟨mem_successors_of_edge he, hst⟩
  cases t with
  | goto e => exact hedge (List.mem_singleton.mpr rfl) stack
  | branch taken notTaken =>
      refine .bind (coupled_popOne stack) fun popped => hedge ?_ popped.1
      by_cases hc : popped.2.truth = true
      · rw [if_pos hc]
        exact List.mem_cons_self
      · rw [if_neg hc]
        exact List.mem_cons_of_mem _ List.mem_cons_self
  | switch cases fallback =>
      refine .bind (coupled_popOne stack) fun popped => hedge ?_ popped.1
      rw [List.getD_eq_getElem?_getD]
      cases hget : cases[popped.2.x.toNat]? with
      | none => exact List.mem_append_right _ (List.mem_singleton.mpr rfl)
      | some e => exact List.mem_append_left _ (List.mem_of_getElem? hget)
  | call | host =>
      refine .bind (coupled_split _ stack) fun operands => .pure fun _ _ hst => ⟨?_, hst⟩
      exact List.mem_append_right _ (List.mem_singleton.mpr rfl)
  | ret results => exact .pure fun _ _ hst => ⟨trivial, hst⟩
  | trap code => exact coupled_throw _

theorem afterExit_coupled {targets : List Nat} (exit : Exit) :
    Coupled (fun st st' => exit.LeadsTo targets ∧ SameOn n S st st') (afterExit oracle exit)
      fun r st st' => (∀ c, r = .inl c → c.1 ∈ targets) ∧ SameOn n S st st' := by
  cases exit with
  | goto target stack =>
      refine .pure fun st st' hst => ⟨fun c hc => ?_, hst.2⟩
      cases hc
      exact hst.1
  | ret results => exact .pure fun _ _ hst => ⟨by rintro _ ⟨⟩, hst.2⟩
  | transfer callee sig next rest args =>
      rintro st st' ⟨hleads, hst⟩
      refine Coupled.bind (coupled_ask oracle callee.request args)
        (fun results => .pure fun st st' hst => ⟨fun c hc => ?_, hst⟩) st st' hst
      cases hc
      exact hleads

/-- What is live somewhere, as a set. -/
def liveSet (m : Machine) (k : Nat) : Set Nat := { x | m.LiveAt x k }

/-- A block depends on what is live on its entry only, and what is live behind it is the same
again. -/
theorem runBlock_coupled (c : Config) :
    Coupled (SameOn n (liveSet m c.1)) (runBlock p l oracle m c) fun r st st' =>
      st.shared = st'.shared
        ∧ ∀ c', r = .inl c' → m.Leads c.1 c'.1 ∧ SameOn n (liveSet m c'.1) st st' := by
  unfold runBlock
  cases hb : m.blocks[c.1]? with
  | none => exact coupled_throw _
  | some b =>
      have hlive := m.liveAt_solves c.1 b hb
      dsimp only
      refine .bind (Q := fun exit st st' => exit.LeadsTo b.term.successors
        ∧ SameOn n (liveSet m c.1 ∪ { x | Body.Writes x b.body }) st st') ?_ fun exit => ?_
      · refine .bind (evalSeq_writes (fun x hx => (hlive x).mpr (.inl hx)) c.2) fun flow => ?_
        cases flow with
        | next stack => exact fun st st' hst => exitBy_coupled b.term stack st st' (hst.2 stack rfl)
        | branch depth stack => exact .throw fun _ _ hst => hst.1
        | ret stack => exact .throw fun _ _ hst => hst.1
      · refine (afterExit_coupled exit).mono fun r st st' ⟨hleads, hst⟩ =>
          ⟨hst.shared, fun c' hc' => ⟨⟨b, hb, hleads c' hc'⟩, hst.mono fun x hx => ?_⟩⟩
        by_cases hwrites : Body.Writes x b.body
        · exact .inr hwrites
        · exact .inl ((hlive x).mpr (.inr ⟨⟨c'.1, hleads c' hc', hx⟩, hwrites⟩))

/-- Ends of blocks as ends of steps: the run goes on from related states, or is over. -/
theorem blockEnd_alike {R : Config × Store σ → Config × Store σ → Prop}
    {a b : Ending (Store σ) (Config ⊕ List Datum)}
    (h : EndsAlike (fun r st st' => st.shared = st'.shared
      ∧ ∀ c, r = .inl c → R (c, st) (c, st')) a b) :
    Sum.LiftRel R (EndsAlike fun _ st st' => st.shared = st'.shared) (blockEnd a) (blockEnd b) := by
  match a, b, h with
  | (.error e, st), (.error e', st'), h => exact .inr h
  | (.ok (.inl c), st), (.ok (.inl c'), st'), ⟨heq, _, hnext⟩ =>
      cases heq
      exact .inl (hnext c rfl)
  | (.ok (.inr results), st), (.ok (.inr results'), st'), ⟨heq, hshared, _⟩ =>
      cases heq
      exact .inr ⟨rfl, hshared⟩

/-- A run depends on what is live where it starts only. -/
theorem runFrom_alike {k : Nat} (stack : List Datum) {st st' : Store σ}
    (h : SameOn n (liveSet m k) st st') :
    Option.Rel (EndsAlike fun _ st st' => st.shared = st'.shared)
      (runFrom p l oracle m k stack st) (runFrom p l oracle m k stack st') := by
  refine untilDone_rel (R := fun now now' => now.1 = now'.1
    ∧ SameOn n (liveSet m now.1.1) now.2 now'.2) ?_ ⟨rfl, h⟩
  rintro ⟨c, st⟩ ⟨c', st'⟩ ⟨heq, hst⟩
  obtain rfl : c = c' := heq
  refine (runBlock_coupled c st st' hst).map fun a b hends => blockEnd_alike (hends.mono ?_)
  exact fun r st st' ⟨hshared, hnext⟩ => ⟨hshared, fun c' hc' => ⟨rfl, (hnext c' hc').2⟩⟩

end Blocks

end Structured

/-! ## Frames in place of locals -/

/-- The locals that a block starts with when its frame is all that is left of them. -/
def Frames.restored (fr : Frames) (k : Nat) (locals : List Datum) : List Datum :=
  spreadLocals fr.layout fr.machine.func.locals (fr.payload k).locals
    ((fr.payload k).saved locals)

section Restored

variable {m : Machine} {l : Layout} {words k : Nat} {fr : Frames} {b : Block}

/-- What a frame saves: for the first block the parameters, and for others what is live. -/
structure Frames.Saves (fr : Frames) (m : Machine) (k : Nat) (b : Block) : Prop where
  nodup : (fr.payload k).locals.Nodup
  lt : ∀ x ∈ (fr.payload k).locals, x < m.func.locals.length
  first : b.index = 0 → (fr.payload k).locals = List.range m.func.type.params.length
  live : b.index ≠ 0 → ∀ x, x ∈ (fr.payload k).locals ↔ m.LiveAt x k

theorem Frames.build_eq_ok (h : Frames.build m l words = .ok fr) :
    ∃ live payloads, m.liveness = .ok live ∧ fr = ⟨m, l, payloads⟩
      ∧ (m.blocks.zip live).mapM (fun x => Frames.payloadOf m.func l x.1 x.2) = .ok payloads := by
  obtain ⟨live, hlive, h⟩ := Program.bind_eq_ok h
  obtain ⟨payloads, hpayloads, h⟩ := Program.bind_eq_ok h
  obtain ⟨-, -, h⟩ := Program.bind_eq_ok h
  exact ⟨live, payloads, hlive, (Except.ok.inj h).symm, hpayloads⟩

theorem Frames.machine_of_build (h : Frames.build m l words = .ok fr) : fr.machine = m := by
  obtain ⟨live, payloads, -, rfl, -⟩ := build_eq_ok h
  rfl

theorem Frames.saves_of_build (h : Frames.build m l words = .ok fr) (hb : m.blocks[k]? = some b) :
    fr.Saves m k b := by
  obtain ⟨live, payloads, hlive, rfl, hpayloads⟩ := build_eq_ok h
  have hall := forall₂_of_mapM hpayloads
  obtain ⟨s, hs⟩ : ∃ s, live[k]? = some s := by
    have hlen := (Machine.livenessEnds_of_liveness hlive).spec.1
    have hlt := (List.getElem?_eq_some_iff.mp hb).1
    exact ⟨_, List.getElem?_eq_getElem (hlen ▸ hlt)⟩
  have hzip : (m.blocks.zip live)[k]? = some (b, s) := List.getElem?_zip_eq_some.mpr ⟨hb, hs⟩
  obtain ⟨pl, hpl, hrun⟩ := getElem?_of_forall₂ hall hzip
  have hpayload : Frames.payload ⟨m, l, payloads⟩ k = pl := by
    rw [Frames.payload, List.getD_eq_getElem?_getD, hpl]
    rfl
  obtain ⟨saved, hsaved, hrun⟩ := Program.bind_eq_ok hrun
  obtain ⟨placed, -, hrun⟩ := Program.bind_eq_ok hrun
  have hlocals : pl.locals
      = if b.index = 0 then List.range m.func.type.params.length else s.toList := by
    rw [← Except.ok.inj hrun]
  rw [← hlocals] at hsaved
  refine ⟨?_, fun x hx => ?_, fun hindex => ?_, fun hindex x => ?_⟩
  · rw [hpayload, hlocals]
    split
    · exact List.nodup_range
    · exact s.nodup_toList
  · rw [hpayload] at hx
    obtain ⟨j, hj⟩ := List.mem_iff_getElem?.mp hx
    obtain ⟨t, -, ht⟩ := getElem?_of_forall₂ (forall₂_of_mapM hsaved) hj
    by_contra hnot
    rw [entry, List.getElem?_eq_none (Nat.le_of_not_lt hnot)] at ht
    cases ht
  · rw [hpayload, hlocals, if_pos hindex]
  · rw [hpayload, hlocals, if_neg hindex, BitSet.mem_toList, ← BitSet.contains_iff]
    exact (Machine.livenessEnds_of_liveness hlive).contains_iff hs x

theorem Frames.length_restored (fr : Frames) (k : Nat) (locals : List Datum) :
    (fr.restored k locals).length = fr.machine.func.locals.length := length_spreadLocals ..

theorem Frames.getElem?_restored (hnodup : (fr.payload k).locals.Nodup) {x : Nat}
    (hx : x ∈ (fr.payload k).locals) (hlt : x < fr.machine.func.locals.length)
    (locals : List Datum) : (fr.restored k locals)[x]? = some (locals.getD x default) := by
  obtain ⟨j, hj⟩ := List.mem_iff_getElem?.mp hx
  refine spreadLocals_saved hnodup hj ?_ hlt
  rw [Payload.saved, List.getElem?_map, hj]
  rfl

open Structured in
/-- What a frame saves may stand for the locals. -/
theorem Frames.restored_sameOn {σ : Type} (h : Frames.build m l words = .ok fr)
    (hindex : ∀ b, m.blocks[k]? = some b → b.index ≠ 0) {st st' : Store σ}
    (hst : SameOn m.func.locals.length (liveSet m k) st st') :
    SameOn m.func.locals.length (liveSet m k) st
      { st' with locals := fr.restored k st'.locals } := by
  obtain ⟨live, payloads, -, rfl, -⟩ := build_eq_ok h
  refine ⟨hst.length, length_restored .., fun x hx => ?_, hst.shared⟩
  obtain ⟨b, hb⟩ : ∃ b, m.blocks[k]? = some b :=
    ⟨_, List.getElem?_eq_getElem (Machine.LiveAt.lt hx)⟩
  have hsaves := saves_of_build h hb
  have hmem := (hsaves.live (hindex b hb) x).mpr hx
  have hlt := hsaves.lt x hmem
  change _ = (Frames.restored ⟨m, l, payloads⟩ k st'.locals)[x]?
  rw [hst.locals x hx, getElem?_restored hsaves.nodup hmem hlt,
    List.getElem?_eq_getElem (hst.length'.symm ▸ hlt),
    List.getD_eq_getElem _ _ (hst.length'.symm ▸ hlt)]

open Structured in
/-- The frame of the first block gives what a function starts with, whatever else is in the
locals. -/
theorem Frames.restored_first (h : Frames.build m l words = .ok fr) (hb : m.blocks[0]? = some b)
    (hindex : b.index = 0) {args : List Datum} (hargs : args.length = m.func.type.params.length)
    (others : List Datum) : fr.restored 0 (args ++ others) = initialLocals l m.func args := by
  have hsaves := saves_of_build h hb
  have hfirst := hsaves.first hindex
  obtain ⟨live, payloads, -, rfl, -⟩ := build_eq_ok h
  refine List.ext_getElem? fun x => ?_
  by_cases hx : x < m.func.type.params.length
  · have hmem : x ∈ (Frames.payload ⟨m, l, payloads⟩ 0).locals := by
      rw [hfirst, List.mem_range]
      exact hx
    have hlt : x < args.length := by omega
    rw [getElem?_restored hsaves.nodup hmem (hsaves.lt x hmem), initialLocals,
      List.getElem?_append_left hlt, List.getD_append _ _ _ _ hlt, List.getD_eq_getElem _ _ hlt,
      List.getElem?_eq_getElem hlt]
  · have hmem : x ∉ (Frames.payload ⟨m, l, payloads⟩ 0).locals := by
      rw [hfirst, List.mem_range]
      exact hx
    rw [initialLocals, List.getElem?_append_right (by omega), List.getElem?_map,
      List.getElem?_drop, hargs, Nat.add_sub_cancel' (by omega)]
    cases ht : m.func.locals[x]? with
    | none =>
        refine List.getElem?_eq_none_iff.mpr ?_
        rw [length_restored]
        exact List.getElem?_eq_none_iff.mp ht
    | some t => exact spreadLocals_zero hmem ht _

end Restored

namespace Structured

variable {σ : Type}

/-! ## Runs that keep frames only -/

/-- The run from a block on where every block starts with what its frame gives. -/
noncomputable def runRestoring (p : Program) (oracle : Oracle σ) (fr : Frames) : Going σ :=
  fun k stack st =>
    untilDone (fun now => runStep p fr.layout oracle fr.machine
      (now.1, { now.2 with locals := fr.restored now.1.1 now.2.locals })) ((k, stack), st)

section Restoring

variable {p : Program} {l : Layout} {oracle : Oracle σ} {m : Machine} {words k : Nat} {fr : Frames}

theorem runRestoring_alike (h : Frames.build m l words = .ok fr)
    (hindex : ∀ k (b : Block), m.blocks[k]? = some b → b.index = k)
    (hinward : ∀ b ∈ m.blocks, 0 ∉ b.term.successors) (stack : List Datum) {st st' : Store σ}
    (hst : SameOn m.func.locals.length (liveSet m k) st
      { st' with locals := fr.restored k st'.locals }) :
    Option.Rel (EndsAlike fun _ st st' => st.shared = st'.shared)
      (runFrom p l oracle m k stack st) (runRestoring p oracle fr k stack st') := by
  obtain ⟨live, payloads, -, rfl, -⟩ := Frames.build_eq_ok h
  refine untilDone_rel (R := fun now now' => now.1 = now'.1
    ∧ SameOn m.func.locals.length (liveSet m now.1.1) now.2
      { now'.2 with locals := Frames.restored ⟨m, l, payloads⟩ now.1.1 now'.2.locals })
    ?_ ⟨rfl, hst⟩
  rintro ⟨c, st⟩ ⟨c', st'⟩ ⟨heq, hst⟩
  obtain rfl : c = c' := heq
  refine (runBlock_coupled c _ _ hst).map fun a b hends => blockEnd_alike (hends.mono ?_)
  refine fun r st st' ⟨hshared, hnext⟩ => ⟨hshared, fun c' hc' => ⟨rfl, ?_⟩⟩
  obtain ⟨⟨b, hb, hleads⟩, hst⟩ := hnext c' hc'
  refine Frames.restored_sameOn h (fun b' hb' hzero => ?_) hst
  rw [hindex c'.1 b' hb'] at hzero
  exact hinward b (List.mem_of_getElem? hb) (hzero ▸ hleads)

end Restoring

/-! ## What can be seen of a run -/

/-- A run, whoever answers. -/
abbrev Run := (τ : Type) → Oracle τ → Eval τ (List Datum)

/-- The end of a run, but for the locals. -/
def seen {α : Type} (r : Ending (Store σ) α) : Ending (Shared σ) α := (r.1, r.2.shared)

/-- The runs come to the same results or to the same stop, with the same globals, or both to none;
and on the way they ask the same, in the same order and with the same globals. -/
def Indistinct (oracle : Oracle σ) (run run' : Run) (st st' : Store σ) : Prop :=
  (run σ oracle st).map seen = (run' σ oracle st').map seen
    ∧ ∀ n, askedWithin n oracle (run _) st = askedWithin n oracle (run' _) st'

theorem eq_of_endsAlike {α : Type} {x y : Option (Ending (Store σ) α)}
    (h : Option.Rel (EndsAlike fun _ st st' => st.shared = st'.shared) x y) :
    x.map seen = y.map seen := by
  refine Option.Rel.eq_of (h.map fun a b hends => ?_)
  match a, b, hends with
  | (.ok a, st), (.ok b, st'), ⟨heq, hshared⟩ => rw [seen, seen, heq, hshared]
  | (.error e, st), (.error e', st'), ⟨heq, hshared⟩ => rw [seen, seen, heq, hshared]

theorem indistinct_of_alike {oracle : Oracle σ} {run run' : Run} {locals locals' : List Datum}
    (h : ∀ (τ : Type) (o : Oracle τ) (shared : Shared τ),
      Option.Rel (EndsAlike fun _ st st' => st.shared = st'.shared) (run τ o ⟨locals, shared⟩)
        (run' τ o ⟨locals', shared⟩)) (shared : Shared σ) :
    Indistinct oracle run run' ⟨locals, shared⟩ ⟨locals', shared⟩ := by
  refine ⟨eq_of_endsAlike (h σ oracle shared), fun n => ?_⟩
  have hasked := eq_of_endsAlike (h _ (oracle.watched n) ⟨shared.globals, (shared.host, [])⟩)
  have hmap := congrArg (Option.map fun r => r.2.host.2) hasked
  rw [Option.map_map, Option.map_map] at hmap
  exact hmap

end Structured

open Split in
/-- Nothing leads back to the first block. -/
theorem Machine.inward_of_split {p : Program} {a : Analysis} {hosts hosts' : HostTable}
    {f : Function} {m : Machine} {body : List Node} (hbody : f.body = .ok body)
    (h : Machine.split p a hosts f = .ok (m, hosts')) :
    ∀ b ∈ m.blocks, 0 ∉ b.term.successors := by
  obtain ⟨u, s, bs, hrun, hfinished, rfl, -⟩ := split_eq_ok hbody h
  have hindex := hfinished.index
  intro b hb
  obtain ⟨k, hk⟩ := List.mem_iff_getElem?.mp hb
  obtain ⟨i, b', hb', -, -, rfl⟩ := of_getElem?_survivors hindex hk
  obtain ⟨d, t, hd, ht, rfl⟩ := hfinished i b' hb'
  have hlt := (List.getElem?_eq_some_iff.mp hb').1
  have hfirst : bs[0]? = some bs[0] := List.getElem?_eq_getElem (by omega)
  exact (((inner_of_walk hrun).terms i d t hd ht).renumber hindex hfirst).targets

open Structured in
/-- In the machine of a checked function the locals that are not live on entry to a block cannot be
told from the run there on; so frames, which save what is live and give zeros for the rest, may
stand for the locals, and for the first block the parameters and zeros. -/
theorem Machine.dead_locals_unseen {p : Program} {g : CallGraph} {f : Function} {hosts : HostTable}
    {source : Binary.Module} (hread : Program.ofModule source = .ok p)
    (hg : CallGraph.build p = .ok g) (hf : f ∈ p.funcs) (hcheck : p.check f = .ok ())
    (hhosts : hosts.Sound p) :
    ∃ m hosts' live, Machine.split p g.analyze hosts f = .ok (m, hosts')
      ∧ m.liveness = .ok live ∧ live.length = m.blocks.length
      ∧ (∀ {σ : Type} (l : Layout) (oracle : Oracle σ) i s, live[i]? = some s →
        ∀ stack locals locals' shared, locals.length = f.locals.length →
          locals'.length = f.locals.length →
          (∀ x, s.contains x = true → locals[x]? = locals'[x]?) →
          Indistinct oracle (fun _ o => runFrom p l o m i stack) (fun _ o => runFrom p l o m i stack)
            ⟨locals, shared⟩ ⟨locals', shared⟩)
      ∧ ∀ {σ : Type} (l : Layout) words fr, Frames.build m l words = .ok fr →
        ∀ (oracle : Oracle σ) shared,
          (∀ i stack locals, i ≠ 0 → locals.length = f.locals.length →
            Indistinct oracle (fun _ o => runFrom p l o m i stack)
              (fun _ o => runRestoring p o fr i stack) ⟨locals, shared⟩ ⟨locals, shared⟩)
          ∧ ∀ args others, args.length = f.type.params.length →
            Indistinct oracle (fun _ o => runMachine p l o m) (fun _ o => runRestoring p o fr 0 [])
              ⟨initialLocals l f args, shared⟩ ⟨args ++ others, shared⟩ := by
  obtain ⟨body, m, hosts', hbody, hsplit, rfl, hsound⟩ :=
    Machine.split_checked (Program.formed_of_ofModule hread) hg hf hcheck hhosts
  obtain ⟨live, hlive, hlen, -⟩ := Machine.liveness_total (fun b hb => (hsound.typed b hb).body) hsound.isClosed
  have hinward := Machine.inward_of_split hbody hsplit
  refine ⟨m, hosts', live, hsplit, hlive, hlen, ?_, ?_⟩
  · intro σ l oracle i s hs stack locals locals' shared hlocals hlocals' hsame
    refine indistinct_of_alike (fun τ o shared => runFrom_alike stack ⟨hlocals, hlocals', ?_, rfl⟩)
      shared
    exact fun x hx => hsame x (((Machine.livenessEnds_of_liveness hlive).contains_iff hs x).mpr hx)
  · intro σ l words fr hbuild oracle shared
    refine ⟨fun i stack locals hi hlocals => ?_, fun args others hargs => ?_⟩
    · refine indistinct_of_alike (fun τ o shared =>
        runRestoring_alike hbuild hsound.index hinward stack ?_) shared
      refine Frames.restored_sameOn hbuild (fun b hb => ?_) ⟨hlocals, hlocals, fun _ _ => rfl, rfl⟩
      rw [hsound.index i b hb]
      exact hi
    · obtain ⟨b, hb, -⟩ := Option.map_eq_some_iff.mp hsound.first
      refine indistinct_of_alike (fun τ o shared =>
        runRestoring_alike hbuild hsound.index hinward [] ?_) shared
      have hfirst := Frames.restored_first hbuild hb (hsound.index 0 b hb) hargs others
      have hlength := fr.length_restored 0 (args ++ others)
      dsimp only
      rw [Frames.machine_of_build hbuild, hfirst] at hlength
      rw [hfirst]
      exact ⟨hlength, hlength, fun _ _ => rfl, rfl⟩

open Structured in
/-- The theorem at the function with a loop, a table branch and recursion: where it goes on behind
the call, its local is about to be written, and the frame saves none. -/
theorem Machine.dead_locals_unseen_wandering :
    HostTable.Sound wanderingProgram { layout := {} }
      ∧ ∃ m hosts' fr, Machine.split wanderingProgram wanderingGraph.analyze { layout := {} }
          wanderingFunction = .ok (m, hosts')
        ∧ Frames.build m {} 64 = .ok fr ∧ fr.payloads.map (·.locals) = [[0], [0], [0], []]
        ∧ ∀ (oracle : Oracle Unit) shared d d',
          Indistinct oracle (fun _ o => runFrom wanderingProgram {} o m 3 [.zero .u32])
            (fun _ o => runFrom wanderingProgram {} o m 3 [.zero .u32]) ⟨[d], shared⟩ ⟨[d'], shared⟩
          ∧ Indistinct oracle (fun _ o => runMachine wanderingProgram {} o m)
            (fun _ o => runRestoring wanderingProgram o fr 0 [])
            ⟨initialLocals {} wanderingFunction [d], shared⟩ ⟨[d], shared⟩ := by
  have hhosts := HostTable.Sound.empty wanderingProgram {}
  obtain ⟨m, hosts', live, hsplit, hlive, hlen, hdead, hframes⟩ := Machine.dead_locals_unseen
    read_wandering build_wandering mem_wandering check_wandering hhosts
  have hsaved : (Machine.split wanderingProgram wanderingGraph.analyze { layout := {} }
      wanderingFunction >>= fun r => Frames.build r.1 {} 64).toOption.map
        (fun fr => fr.payloads.map (·.locals)) = some [[0], [0], [0], []] := by decide +kernel
  have hsets : (Machine.split wanderingProgram wanderingGraph.analyze { layout := {} }
      wanderingFunction >>= fun r => r.1.liveness).toOption.map (·.map (·.toList))
        = some [[0], [0], [0], []] := by decide +kernel
  have hsizes : wanderingFunction.locals.length = 1 ∧ wanderingFunction.type.params.length = 1 := by
    decide +kernel
  rw [hsplit] at hsaved hsets
  change (Frames.build m {} 64).toOption.map _ = _ at hsaved
  change m.liveness.toOption.map _ = _ at hsets
  rw [hlive] at hsets
  obtain ⟨s, hs, hempty⟩ : ∃ s, live[3]? = some s ∧ s.toList = [] := by
    have hthird := congrArg (·[3]?) (Option.some.inj hsets)
    exact Option.map_eq_some_iff.mp ((List.getElem?_map ..).symm.trans hthird)
  have hnone (x : Nat) (hx : s.contains x = true) : False := by
    rw [BitSet.contains_iff, ← BitSet.mem_toList, hempty] at hx
    cases hx
  cases hfr : Frames.build m {} 64 with
  | error e =>
      rw [hfr] at hsaved
      cases hsaved
  | ok fr =>
      rw [hfr] at hsaved
      refine ⟨hhosts, m, hosts', fr, hsplit, hfr, Option.some.inj hsaved,
        fun oracle shared d d' => ⟨?_, ?_⟩⟩
      · exact hdead {} oracle 3 s hs _ [d] [d'] shared hsizes.1.symm hsizes.1.symm
          fun x hx => (hnone x hx).elim
      · exact (hframes {} 64 fr hfr oracle shared).2 [d] [] hsizes.2.symm

end WasmShader
