import WasmShader.Proofs.FrameLayout

/-!
# What is live

A local is live on entry to a block if control can take a path from there to a block that reads
it before writing it, through blocks that are not sure to write it (`Machine.LiveAt`). The sets
that the passes over the blocks come to are exactly these, and so the least that solve the
equations of liveness.

What a pass does to one local depends on that local alone: where it is live by now. So each local
spreads by at least one block with every pass until it stays where it is, and after as many passes
as there are blocks nothing can change any more, however many locals there are.
-/

namespace WasmShader

/-! ## Reads and writes -/

def Instr.Reads (x : Nat) (i : Instr) : Prop :=
  i.operation = .localGet ∧ ∃ idx, i.imm = .localVar idx ∧ idx.toNat = x

def Instr.Writes (x : Nat) (i : Instr) : Prop :=
  (i.operation = .localSet ∨ i.operation = .localTee) ∧ ∃ idx, i.imm = .localVar idx ∧ idx.toNat = x

/-- Instructions that read or write a local say which. -/
def Instr.NamesLocal (i : Instr) : Prop :=
  i.operation = .localGet ∨ i.operation = .localSet ∨ i.operation = .localTee →
    ∃ idx, i.imm = .localVar idx

/-- Some instruction of the node, at any depth, reads the local. -/
def Node.Reads (x : Nat) (n : Node) : Prop := ∃ i ∈ n.instrs, i.Reads x

/-- The node is an instruction that writes the local. -/
def Node.Writes (x : Nat) (n : Node) : Prop := ∃ i, n = .instr i ∧ i.Writes x

/-- The code reads the local, and has no write of it at its top level before that. -/
def Body.ReadsFirst (x : Nat) (code : List Node) : Prop :=
  ∃ before n after, code = before ++ n :: after ∧ n.Reads x ∧ ∀ m ∈ before, ¬ m.Writes x

/-- The code writes the local at its top level. -/
def Body.Writes (x : Nat) (code : List Node) : Prop := ∃ n ∈ code, n.Writes x

theorem Body.readsFirst_nil (x : Nat) : ¬ ReadsFirst x [] := by
  rintro ⟨before, n, after, heq, -⟩
  cases before <;> cases heq

theorem Body.readsFirst_cons {x : Nat} {n : Node} {code : List Node} :
    ReadsFirst x (n :: code) ↔ n.Reads x ∨ (¬ n.Writes x ∧ ReadsFirst x code) := by
  constructor
  · rintro ⟨before, n', after, heq, hreads, hbefore⟩
    cases before with
    | nil =>
        cases heq
        exact .inl hreads
    | cons m before =>
        cases heq
        exact .inr ⟨hbefore n List.mem_cons_self, before, n', after, rfl, hreads,
          fun m hm => hbefore m (List.mem_cons_of_mem _ hm)⟩
  · rintro (hreads | ⟨hnot, before, n', after, rfl, hreads, hbefore⟩)
    · exact ⟨[], n, code, rfl, hreads, fun m hm => absurd hm List.not_mem_nil⟩
    · exact ⟨n :: before, n', after, rfl, hreads, List.forall_mem_cons.mpr ⟨hnot, hbefore⟩⟩

theorem Body.writes_cons {x : Nat} {n : Node} {code : List Node} :
    Writes x (n :: code) ↔ n.Writes x ∨ Writes x code := by
  simp only [Writes, List.mem_cons, exists_eq_or_imp]

/-! ## Paths -/

/-- Control can go from one block to another, and the first is not sure to write the local. -/
def Machine.Passes (m : Machine) (x i j : Nat) : Prop :=
  ∃ b, m.blocks[i]? = some b ∧ j ∈ b.term.successors ∧ ¬ Body.Writes x b.body

/-- From the block on there is a path to one that reads the local before writing it, through
blocks that are not sure to write it. -/
def Machine.LiveAt (m : Machine) (x i : Nat) : Prop :=
  ∃ k, Relation.ReflTransGen (m.Passes x) i k
    ∧ ∃ b, m.blocks[k]? = some b ∧ Body.ReadsFirst x b.body

/-- The sets, one for each block, solve the equations of liveness: live are the locals that the
block reads before writing them, and those that are live behind it and that it is not sure to
write. -/
def Machine.SolvesLiveness (m : Machine) (live : Nat → Set Nat) : Prop :=
  ∀ i b, m.blocks[i]? = some b → ∀ x, x ∈ live i ↔ Body.ReadsFirst x b.body
    ∨ ((∃ s ∈ b.term.successors, x ∈ live s) ∧ ¬ Body.Writes x b.body)

theorem Machine.LiveAt.of_passes {m : Machine} {x i j : Nat} (h : m.LiveAt x j)
    (hpasses : m.Passes x i j) : m.LiveAt x i := by
  obtain ⟨k, hpath, hk⟩ := h
  exact ⟨k, .head hpasses hpath, hk⟩

/-- What holds of the blocks that read the local first, and passes backwards, holds wherever the
local is live. -/
theorem Machine.LiveAt.elim {m : Machine} {x i : Nat} {P : Nat → Prop} (h : m.LiveAt x i)
    (hreads : ∀ k b, m.blocks[k]? = some b → Body.ReadsFirst x b.body → P k)
    (hpasses : ∀ i j, m.Passes x i j → P j → P i) : P i := by
  obtain ⟨k, hpath, b, hb, hfirst⟩ := h
  induction hpath using Relation.ReflTransGen.head_induction_on with
  | refl => exact hreads k b hb hfirst
  | head hstep _ ih => exact hpasses _ _ hstep ih

namespace Liveness

/-! ## The use of a block -/

theorem reads_instr {i : Instr} {x : Nat} : (Node.instr i).Reads x ↔ i.Reads x := by
  unfold Node.Reads
  rw [Node.instrs]
  simp only [List.mem_singleton, exists_eq_left]

theorem writes_instr {i : Instr} {x : Nat} : (Node.instr i).Writes x ↔ i.Writes x := by
  simp only [Node.Writes, Node.instr.injEq, exists_eq_left']

/-- The use of a block is extended by reads, which count unless the local has been written, and
by writes. -/
def Extends (x : Nat) (reads writes : Prop) (u u' : Use) : Prop :=
  (u'.reads.Mem x ↔ u.reads.Mem x ∨ (¬ u.writes.Mem x ∧ reads))
    ∧ (u'.writes.Mem x ↔ u.writes.Mem x ∨ writes)

theorem useInstr_extends {top : Bool} {i : Instr} {u u' : Use} (h : useInstr top i u = .ok u')
    (x : Nat) : Extends x (i.Reads x) (top = true ∧ i.Writes x) u u' := by
  unfold Extends Instr.Reads Instr.Writes
  unfold useInstr at h
  split at h
  · next idx hop himm =>
    cases h
    by_cases hwritten : u.writes.Mem idx.toNat
    · rw [if_pos (BitSet.contains_iff.mpr hwritten)]
      have hnot : ¬ (¬ u.writes.Mem x ∧ idx.toNat = x) := by
        rintro ⟨hx, rfl⟩
        exact hx hwritten
      simp [hop, himm, hnot]
    · rw [if_neg (mt BitSet.contains_iff.mp hwritten)]
      have hread : x = idx.toNat ↔ ¬ u.writes.Mem x ∧ idx.toNat = x := by
        constructor
        · rintro rfl
          exact ⟨hwritten, rfl⟩
        · exact fun hx => hx.2.symm
      simp [hop, himm, BitSet.mem_insert, hread]
  · next idx hop himm =>
    cases h
    cases top <;> simp [hop, himm, BitSet.mem_insert, eq_comm]
  · next idx hop himm =>
    cases h
    cases top <;> simp [hop, himm, BitSet.mem_insert, eq_comm]
  · cases h
  · next hop himm =>
    cases top with
    | true => cases h
    | false => cases h; simp [hop]
  · next hop himm =>
    cases top with
    | true => cases h
    | false => cases h; simp [hop]
  · next hget hset htee _ _ _ =>
    cases h
    have hget : i.operation ≠ .localGet := hget
    have hset : i.operation ≠ .localSet := hset
    have htee : i.operation ≠ .localTee := htee
    simp [hget, hset, htee]

section Extends

variable {x : Nat} {reads reads' writes writes' : Prop} {u u₁ u' : Use}

theorem Extends.refl (u : Use) : Extends x False False u u := by
  simp [Extends]

theorem Extends.trans (h : Extends x reads writes u u₁) (h' : Extends x reads' writes' u₁ u') :
    Extends x (reads ∨ (¬ writes ∧ reads')) (writes ∨ writes') u u' := by
  obtain ⟨hr, hw⟩ := h
  obtain ⟨hr', hw'⟩ := h'
  refine ⟨?_, by rw [hw', hw, or_assoc]⟩
  rw [hr', hr, hw, not_or, and_or_left, or_assoc, and_assoc]

theorem Extends.congr (h : Extends x reads writes u u') (hreads : reads ↔ reads')
    (hwrites : writes ↔ writes') : Extends x reads' writes' u u' := by
  rw [← propext hreads, ← propext hwrites]
  exact h

end Extends

mutual

/-- Below the top level nothing is sure to be written. -/
theorem useNode_inside : (n : Node) → {u u' : Use} → useNode false n u = .ok u' →
    (x : Nat) → Extends x (n.Reads x) False u u'
  | .instr i, u, u', h, x => by
      rw [useNode] at h
      refine (useInstr_extends h x).congr reads_instr.symm ?_
      simp only [Bool.false_eq_true, false_and]
  | .block loop sig body, u, u', h, x => by
      rw [useNode] at h
      exact useSeq_inside body h x
  | .ifThen sig body, u, u', h, x => by
      rw [useNode] at h
      exact useSeq_inside body h x
  | .ifElse sig body alternative, u, u', h, x => by
      rw [useNode] at h
      obtain ⟨u₁, hbody, halternative⟩ := Program.bind_eq_ok h
      refine ((useSeq_inside body hbody x).trans (useSeq_inside alternative halternative x)).congr
        ?_ (or_self_iff ..)
      simp only [Node.Reads, Node.instrs, List.mem_append, or_and_right, exists_or, not_false_eq_true,
        true_and]

theorem useSeq_inside : (ns : List Node) → {u u' : Use} → useSeq false ns u = .ok u' →
    (x : Nat) → Extends x (∃ i ∈ Body.instrs ns, i.Reads x) False u u'
  | [], u, u', h, x => by
      rw [useSeq] at h
      cases h
      refine (Extends.refl u).congr ?_ Iff.rfl
      simp [Body.instrs]
  | n :: ns, u, u', h, x => by
      rw [useSeq] at h
      obtain ⟨u₁, hn, hns⟩ := Program.bind_eq_ok h
      refine ((useNode_inside n hn x).trans (useSeq_inside ns hns x)).congr ?_ (or_self_iff ..)
      simp only [Node.Reads, Body.instrs, List.mem_append, or_and_right, exists_or,
        not_false_eq_true, true_and]

end

theorem not_writes_of_ne {x : Nat} {n : Node} (h : ∀ i, n ≠ .instr i) : ¬ n.Writes x := by
  rintro ⟨i, heq, -⟩
  exact h i heq

/-- At the top level an instruction is sure to write. -/
theorem useNode_extends {n : Node} {u u' : Use} (h : useNode true n u = .ok u') (x : Nat) :
    Extends x (n.Reads x) (n.Writes x) u u' := by
  have hnested (hne : ∀ i, n ≠ .instr i) (hrun : useNode false n u = .ok u') :
      Extends x (n.Reads x) (n.Writes x) u u' :=
    (useNode_inside n hrun x).congr Iff.rfl (iff_of_false not_false (not_writes_of_ne hne))
  cases n with
  | instr i =>
      rw [useNode] at h
      refine (useInstr_extends h x).congr reads_instr.symm ?_
      rw [writes_instr]
      simp only [true_and]
  | block | ifThen | ifElse =>
      refine hnested (by rintro i ⟨⟩) ?_
      rw [useNode] at h ⊢
      exact h

theorem useSeq_extends {code : List Node} {u u' : Use} (h : useSeq true code u = .ok u') (x : Nat) :
    Extends x (Body.ReadsFirst x code) (Body.Writes x code) u u' := by
  induction code generalizing u with
  | nil =>
      rw [useSeq] at h
      cases h
      exact (Extends.refl _).congr (iff_of_false not_false (Body.readsFirst_nil x))
        (iff_of_false not_false (by rintro ⟨n, hn, -⟩; cases hn))
  | cons n code ih =>
      rw [useSeq] at h
      obtain ⟨u₁, hn, hcode⟩ := Program.bind_eq_ok h
      exact ((useNode_extends hn x).trans (ih hcode)).congr Body.readsFirst_cons.symm
        Body.writes_cons.symm

/-- The use of a block tells what it reads before writing it, and what it is sure to write. -/
theorem mem_use {locals : Nat} {code : List Node} {u : Use}
    (h : useSeq true code ⟨.room locals, .room locals⟩ = .ok u) (x : Nat) :
    (u.reads.Mem x ↔ Body.ReadsFirst x code)
      ∧ (u.writes.Mem x ↔ Body.Writes x code) := by
  have hempty := BitSet.not_mem_room locals x
  obtain ⟨hreads, hwrites⟩ := useSeq_extends h x
  simp only [hempty, false_or, not_false_eq_true, true_and] at hreads hwrites
  exact ⟨hreads, hwrites⟩

/-! ## Passes -/

/-- The local is in the set of the block. -/
def In (live : Array BitSet) (x i : Nat) : Prop := (live.getD i default).Mem x

theorem In.lt {live : Array BitSet} {x i : Nat} (h : In live x i) : i < live.size := by
  by_contra hnot
  rw [In, Array.getD_eq_getD_getElem?, Array.getElem?_eq_none (by omega)] at h
  exact BitSet.not_mem_room 0 x h

theorem mem_liveOut {locals : Nat} {live : Array BitSet} {b : Block} {x : Nat} :
    (liveOut locals live b).Mem x ↔ ∃ s ∈ b.term.successors, In live x s := by
  have hfold (ss : List Nat) (out : BitSet) :
      (ss.foldl (fun out s => (out.union (live.getD s default)).1) out).Mem x
        ↔ out.Mem x ∨ ∃ s ∈ ss, In live x s := by
    induction ss generalizing out with
    | nil => simp
    | cons s ss ih =>
        rw [List.foldl_cons, ih, BitSet.mem_union, or_assoc]
        simp only [List.mem_cons, exists_eq_or_imp, In]
  rw [liveOut, hfold]
  simp only [BitSet.not_mem_room, false_or]

/-- What is live behind the block and not written in it. -/
def Flows (uses : Array Use) (live : Array BitSet) (x : Nat) (b : Block × Nat) : Prop :=
  (∃ s ∈ b.1.term.successors, In live x s) ∧ ¬ (uses.getD b.2 default).writes.Mem x

/-- The sets behind one block of a pass. -/
def advance (locals : Nat) (uses : Array Use) (live : Array BitSet) (b : Block × Nat) :
    Array BitSet :=
  live.setIfInBounds b.2
    ((live.getD b.2 default).unionMinus (liveOut locals live b.1) (uses.getD b.2 default).writes).1

/-- The block makes its set grow. -/
def grows (locals : Nat) (uses : Array Use) (live : Array BitSet) (b : Block × Nat) : Bool :=
  ((live.getD b.2 default).unionMinus (liveOut locals live b.1) (uses.getD b.2 default).writes).2

section Passes

variable {locals : Nat} {uses : Array Use} {bs : List (Block × Nat)} {live live' : Array BitSet}
  {x : Nat}

theorem pass_cons (b : Block × Nat) (changed : Bool) :
    pass locals uses (b :: bs) (live, changed)
      = pass locals uses bs (advance locals uses live b, changed || grows locals uses live b) := rfl

theorem in_advance {b : Block × Nat} (hb : b.2 < live.size) {i : Nat} :
    In (advance locals uses live b) x i ↔ In live x i ∨ (i = b.2 ∧ Flows uses live x b) := by
  unfold In advance
  rw [Array.getD_eq_getD_getElem?, Array.getElem?_setIfInBounds]
  by_cases hi : b.2 = i
  · subst hi
    rw [if_pos rfl, if_pos hb, Option.getD_some, BitSet.mem_unionMinus, mem_liveOut]
    simp only [true_and]
    rfl
  · rw [if_neg hi, ← Array.getD_eq_getD_getElem?]
    simp only [Ne.symm hi, false_and, or_false]

theorem grows_iff {b : Block × Nat} :
    grows locals uses live b = true ↔ ∃ x, Flows uses live x b ∧ ¬ In live x b.2 := by
  rw [grows, BitSet.unionMinus, BitSet.union_grows]
  simp only [BitSet.mem_minus, mem_liveOut]
  rfl

theorem size_advance (locals : Nat) (uses : Array Use) (live : Array BitSet)
    (b : Block × Nat) : (advance locals uses live b).size = live.size := Array.size_setIfInBounds

theorem size_pass (uses : Array Use) (bs : List (Block × Nat)) (live : Array BitSet)
    (changed : Bool) : (pass locals uses bs (live, changed)).1.size = live.size := by
  induction bs generalizing live changed with
  | nil => rfl
  | cons b bs ih => rw [pass_cons, ih, size_advance]

/-- The numbers of the blocks have sets. -/
def Placed (bs : List (Block × Nat)) (live : Array BitSet) : Prop := ∀ b ∈ bs, b.2 < live.size

theorem Placed.advance {b : Block × Nat} (h : Placed (b :: bs) live) (uses : Array Use) :
    b.2 < live.size ∧ Placed bs (advance locals uses live b) := by
  obtain ⟨hb, hbs⟩ := List.forall_mem_cons.mp h
  exact ⟨hb, fun c hc => by rw [size_advance]; exact hbs c hc⟩

theorem in_pass_of_in (h : Placed bs live) (changed : Bool) {i : Nat} (hi : In live x i) :
    In (pass locals uses bs (live, changed)).1 x i := by
  induction bs generalizing live changed with
  | nil => exact hi
  | cons b bs ih =>
      obtain ⟨hb, hbs⟩ := h.advance uses
      rw [pass_cons]
      exact ih hbs _ ((in_advance hb).mpr (.inl hi))

/-- What a pass does to a local depends on where the local is live by now. -/
theorem in_pass_congr (h : Placed bs live) (h' : Placed bs live')
    (hsame : ∀ i, In live x i ↔ In live' x i) (i : Nat) (changed changed' : Bool) :
    In (pass locals uses bs (live, changed)).1 x i
      ↔ In (pass locals uses bs (live', changed')).1 x i := by
  induction bs generalizing live live' changed changed' with
  | nil => exact hsame i
  | cons b bs ih =>
      obtain ⟨hb, hbs⟩ := h.advance uses
      obtain ⟨hb', hbs'⟩ := h'.advance uses
      rw [pass_cons, pass_cons]
      refine ih hbs hbs' (fun j => ?_) _ _
      rw [in_advance hb, in_advance hb']
      simp only [Flows, hsame]

/-- What a pass finds comes from where something has been found, one block after another. -/
theorem of_in_pass {P : Nat → Prop} (h : Placed bs live) (hlive : ∀ i, In live x i → P i)
    (hflows : ∀ b ∈ bs, ∀ s ∈ b.1.term.successors, P s →
      ¬ (uses.getD b.2 default).writes.Mem x → P b.2) {changed : Bool} {i : Nat}
    (hi : In (pass locals uses bs (live, changed)).1 x i) : P i := by
  induction bs generalizing live changed with
  | nil => exact hlive i hi
  | cons b bs ih =>
      obtain ⟨hb, hbs⟩ := h.advance uses
      rw [pass_cons] at hi
      refine ih hbs (fun j hj => ?_) (fun c hc => hflows c (List.mem_cons_of_mem _ hc)) hi
      rcases (in_advance hb).mp hj with hj | ⟨rfl, ⟨s, hs, hin⟩, hnot⟩
      · exact hlive j hj
      · exact hflows b List.mem_cons_self s hs (hlive s hin) hnot

theorem changed_of_changed (bs : List (Block × Nat)) (live : Array BitSet) :
    (pass locals uses bs (live, true)).2 = true := by
  induction bs generalizing live with
  | nil => rfl
  | cons b bs ih =>
      rw [pass_cons, Bool.true_or]
      exact ih _

/-- A pass that reports no change has found nothing, and there was nothing to find. -/
theorem pass_still (uses : Array Use) (h : Placed bs live)
    (hstill : (pass locals uses bs (live, false)).2 = false) :
    (∀ x i, In (pass locals uses bs (live, false)).1 x i ↔ In live x i)
      ∧ ∀ x, ∀ b ∈ bs, Flows uses live x b → In live x b.2 := by
  induction bs generalizing live with
  | nil => exact ⟨fun _ _ => Iff.rfl, fun _ b hb => absurd hb List.not_mem_nil⟩
  | cons b bs ih =>
      obtain ⟨hb, hbs⟩ := h.advance uses
      rw [pass_cons, Bool.false_or] at hstill ⊢
      cases hgrows : grows locals uses live b with
      | true =>
          rw [hgrows, changed_of_changed] at hstill
          cases hstill
      | false =>
          rw [hgrows] at hstill
          have hnone (x : Nat) (hx : Flows uses live x b) : In live x b.2 := by
            by_contra hnot
            rw [grows_iff.mpr ⟨x, hx, hnot⟩] at hgrows
            cases hgrows
          have hsame (x i : Nat) : In (advance locals uses live b) x i ↔ In live x i := by
            rw [in_advance hb, or_iff_left_iff_imp]
            rintro ⟨rfl, hx⟩
            exact hnone x hx
          obtain ⟨hpass, hclosed⟩ := ih hbs hstill
          refine ⟨fun x i => (hpass x i).trans (hsame x i), fun x c hc hx => ?_⟩
          rcases List.mem_cons.mp hc with rfl | hc
          · exact hnone x hx
          · refine (hsame x _).mp (hclosed x c hc ?_)
            simpa only [Flows, hsame] using hx

/-- A pass that reports a change has found a local live somewhere. -/
theorem pass_changed (uses : Array Use) (h : Placed bs live)
    (hchanged : (pass locals uses bs (live, false)).2 = true) :
    ∃ x i, In (pass locals uses bs (live, false)).1 x i ∧ ¬ In live x i := by
  induction bs generalizing live with
  | nil => cases hchanged
  | cons b bs ih =>
      obtain ⟨hb, hbs⟩ := h.advance uses
      rw [pass_cons, Bool.false_or] at hchanged ⊢
      cases hgrows : grows locals uses live b with
      | true =>
          obtain ⟨x, hflows, hnot⟩ := grows_iff.mp hgrows
          exact ⟨x, b.2, in_pass_of_in hbs _ ((in_advance hb).mpr (.inr ⟨rfl, hflows⟩)), hnot⟩
      | false =>
          rw [hgrows] at hchanged
          obtain ⟨x, i, hin, hnot⟩ := ih hbs hchanged
          exact ⟨x, i, hin, fun hi => hnot ((in_advance hb).mpr (.inl hi))⟩

end Passes

/-! ## All passes -/

/-- The passes, as often as something changes, end with these sets after a number of passes. -/
inductive Converges (locals : Nat) (uses : Array Use) (bs : List (Block × Nat)) :
    Nat → Array BitSet → Array BitSet → Prop
  | still {live last : Array BitSet} : pass locals uses bs (live, false) = (last, false) →
      Converges locals uses bs 1 live last
  | again {n : Nat} {live next last : Array BitSet} :
      pass locals uses bs (live, false) = (next, true) → Converges locals uses bs n next last →
      Converges locals uses bs (n + 1) live last

section Converges

variable {locals : Nat} {uses : Array Use} {bs : List (Block × Nat)} {live last : Array BitSet}
  {n : Nat}

theorem iterate_of_converges (h : Converges locals uses bs n live last) {fuel : Nat} (hfuel : n ≤ fuel) :
    iterate locals uses bs fuel live = last := by
  induction h generalizing fuel with
  | still hpass =>
      obtain ⟨fuel, rfl⟩ := Nat.exists_eq_add_of_le' hfuel
      rw [iterate, hpass]
      rfl
  | again hpass _ ih =>
      obtain ⟨fuel, rfl⟩ := Nat.exists_eq_add_of_le' (Nat.le_trans (Nat.le_add_left ..) hfuel)
      rw [iterate, hpass]
      exact ih (Nat.le_of_succ_le_succ hfuel)

/-- The sets after one pass. -/
def afterPass (locals : Nat) (uses : Array Use) (bs : List (Block × Nat)) (live : Array BitSet) :
    Array BitSet :=
  (pass locals uses bs (live, false)).1

/-- The sets after a number of passes. -/
def after (locals : Nat) (uses : Array Use) (bs : List (Block × Nat)) (live : Array BitSet) (k : Nat) :
    Array BitSet := (afterPass locals uses bs)^[k] live

theorem after_succ (live : Array BitSet) (k : Nat) :
    after locals uses bs live (k + 1) = afterPass locals uses bs (after locals uses bs live k) :=
  Function.iterate_succ_apply' ..

theorem size_after (live : Array BitSet) (k : Nat) :
    (after locals uses bs live k).size = live.size := by
  induction k with
  | zero => rfl
  | succ k ih => rw [after_succ, afterPass, size_pass, ih]

theorem Placed.after (h : Placed bs live) (k : Nat) : Placed bs (after locals uses bs live k) :=
  fun b hb => by rw [size_after]; exact h b hb

open scoped Classical in
/-- The blocks where the local is live. -/
noncomputable def places (live : Array BitSet) (x : Nat) : Finset Nat :=
  (Finset.range live.size).filter fun i => In live x i

open scoped Classical in
theorem mem_places {x i : Nat} : i ∈ places live x ↔ In live x i := by
  rw [places, Finset.mem_filter, Finset.mem_range]
  exact and_iff_right_of_imp In.lt

open scoped Classical in
theorem card_places_le (live : Array BitSet) (x : Nat) : (places live x).card ≤ live.size := by
  have hle := Finset.card_filter_le (Finset.range live.size) fun i => In live x i
  rwa [Finset.card_range] at hle

/-- A local that is still spreading has got to a block with every pass. -/
theorem places_after (uses : Array Use) (h : Placed bs live) (x k : Nat) :
    places (after locals uses bs live k) x = places (after locals uses bs live (k + 1)) x
      ∨ k < (places (after locals uses bs live (k + 1)) x).card := by
  have hsub (k : Nat) :
      places (after locals uses bs live k) x ⊆ places (after locals uses bs live (k + 1)) x := by
    intro i hi
    rw [mem_places] at hi ⊢
    rw [after_succ]
    exact in_pass_of_in (h.after k) _ hi
  have hgrows {k : Nat} (hne : places (after locals uses bs live k) x
      ≠ places (after locals uses bs live (k + 1)) x) :
      (places (after locals uses bs live k) x).card
        < (places (after locals uses bs live (k + 1)) x).card :=
    Finset.card_lt_card (Finset.ssubset_iff_subset_ne.mpr ⟨hsub k, hne⟩)
  induction k with
  | zero =>
      refine or_iff_not_imp_left.mpr fun hne => ?_
      have := hgrows hne
      omega
  | succ k ih =>
      refine or_iff_not_imp_left.mpr fun hne => ?_
      rcases ih with hsame | hlt
      · refine absurd (Finset.ext fun i => ?_) hne
        rw [mem_places, mem_places, after_succ, after_succ (k := k + 1)]
        refine in_pass_congr (h.after k) (h.after (k + 1)) (fun j => ?_) i _ _
        rw [← mem_places, hsame, mem_places]
      · have := hgrows hne
        omega

/-- As many passes as there are blocks find everything. -/
theorem in_after_size (h : Placed bs live) {x i : Nat} :
    In (after locals uses bs live live.size) x i
      ↔ In (after locals uses bs live (live.size + 1)) x i := by
  rw [← mem_places, ← mem_places]
  rcases places_after uses h x live.size with hsame | hlt
  · rw [hsame]
  · have hle := card_places_le (after locals uses bs live (live.size + 1)) x
    rw [size_after] at hle
    omega

theorem converges_of_after (h : Placed bs live) {k : Nat}
    (hk : ∀ x i, In (after locals uses bs live (k + 1)) x i → In (after locals uses bs live k) x i) :
    ∃ n ≤ k + 1, ∃ last, Converges locals uses bs n live last := by
  induction k generalizing live with
  | zero =>
      cases hpass : pass locals uses bs (live, false) with
      | mk last changed =>
          cases changed with
          | false => exact ⟨1, Nat.le_refl 1, last, .still hpass⟩
          | true =>
              obtain ⟨x, i, hin, hnot⟩ := pass_changed uses h (by rw [hpass])
              exact absurd (hk x i hin) hnot
  | succ k ih =>
      cases hpass : pass locals uses bs (live, false) with
      | mk next changed =>
          cases changed with
          | false => exact ⟨1, Nat.le_add_left .., next, .still hpass⟩
          | true =>
              have hnext : next = afterPass locals uses bs live := by rw [afterPass, hpass]
              subst hnext
              obtain ⟨n, hn, last, hlast⟩ := ih (h.after 1) hk
              exact ⟨n + 1, Nat.succ_le_succ hn, last, .again hpass hlast⟩

/-- The passes come to an end. -/
theorem exists_converges (uses : Array Use) (h : Placed bs live) :
    ∃ n ≤ live.size + 1, ∃ last, Converges locals uses bs n live last :=
  converges_of_after h fun _ _ => (in_after_size h).mpr

/-- Where the passes end, all has been found, and nothing else. -/
theorem Converges.spec (h : Converges locals uses bs n live last) (hplaced : Placed bs live) :
    last.size = live.size ∧ (∀ x i, In live x i → In last x i)
      ∧ (∀ x, ∀ b ∈ bs, Flows uses last x b → In last x b.2)
      ∧ ∀ x (P : Nat → Prop), (∀ i, In live x i → P i) →
        (∀ b ∈ bs, ∀ s ∈ b.1.term.successors, P s →
          ¬ (uses.getD b.2 default).writes.Mem x → P b.2) → ∀ i, In last x i → P i := by
  induction h with
  | @still live last hpass =>
      have hlast : last = (pass locals uses bs (live, false)).1 := by rw [hpass]
      obtain ⟨hsame, hclosed⟩ := pass_still uses hplaced (by rw [hpass])
      rw [← hlast] at hsame
      refine ⟨by rw [hlast, size_pass], fun x i => (hsame x i).mpr, fun x b hb hflows => ?_,
        fun x P hlive _ i hi => hlive i ((hsame x i).mp hi)⟩
      refine (hsame x _).mpr (hclosed x b hb ?_)
      simpa only [Flows, hsame] using hflows
  | @again n live next last hpass _ ih =>
      have hnext : next = (pass locals uses bs (live, false)).1 := by rw [hpass]
      have hplaced' : Placed bs next := fun b hb => by rw [hnext, size_pass]; exact hplaced b hb
      obtain ⟨hsize, hmore, hclosed, hsound⟩ := ih hplaced'
      refine ⟨by rw [hsize, hnext, size_pass], fun x i hi => hmore x i ?_, hclosed,
        fun x P hlive hflows => hsound x P (fun i hi => ?_) hflows⟩
      · rw [hnext]
        exact in_pass_of_in hplaced _ hi
      · rw [hnext] at hi
        exact of_in_pass hplaced hlive hflows hi

end Converges

end Liveness

open Liveness in
/-- The passes over the blocks of the machine, from what the blocks read before writing it, end
with these sets. -/
def Machine.LivenessEnds (m : Machine) (live : List BitSet) : Prop :=
  let locals := m.func.locals.length
  ∃ uses n, (m.blocks.mapM fun b => useSeq true b.body ⟨.room locals, .room locals⟩) = .ok uses
    ∧ Converges locals uses.toArray m.blocks.zipIdx.reverse n (uses.map (·.reads)).toArray live.toArray

section Exact

open Liveness

variable {m : Machine}

theorem useInstr_of_namesLocal {i : Instr} (h : i.NamesLocal) (top : Bool) (u : Use) :
    ∃ u', useInstr top i u = .ok u' := by
  unfold useInstr
  split
  · exact ⟨_, rfl⟩
  · exact ⟨_, rfl⟩
  · exact ⟨_, rfl⟩
  · next hop himm =>
    obtain ⟨idx, hidx⟩ := h (.inl hop)
    exact absurd hidx (himm idx)
  · next hop himm =>
    obtain ⟨idx, hidx⟩ := h (.inr (.inl hop))
    exact absurd hidx (himm idx)
  · next hop himm =>
    obtain ⟨idx, hidx⟩ := h (.inr (.inr hop))
    exact absurd hidx (himm idx)
  · exact ⟨_, rfl⟩

mutual

theorem useNode_of_namesLocal : (n : Node) → (∀ i ∈ n.instrs, i.NamesLocal) → (top : Bool) →
    (u : Use) → ∃ u', useNode top n u = .ok u'
  | .instr i, h, top, u => by
      rw [Node.instrs] at h
      rw [useNode]
      exact useInstr_of_namesLocal (h i (List.mem_singleton.mpr rfl)) top u
  | .block loop sig body, h, top, u => by
      rw [Node.instrs] at h
      rw [useNode]
      exact useSeq_of_namesLocal body h false u
  | .ifThen sig body, h, top, u => by
      rw [Node.instrs] at h
      rw [useNode]
      exact useSeq_of_namesLocal body h false u
  | .ifElse sig body alternative, h, top, u => by
      rw [Node.instrs] at h
      rw [useNode]
      obtain ⟨u₁, hbody⟩ :=
        useSeq_of_namesLocal body (fun i hi => h i (List.mem_append_left _ hi)) false u
      rw [hbody]
      exact useSeq_of_namesLocal alternative (fun i hi => h i (List.mem_append_right _ hi)) false u₁

theorem useSeq_of_namesLocal : (ns : List Node) → (∀ i ∈ Body.instrs ns, i.NamesLocal) →
    (top : Bool) → (u : Use) → ∃ u', useSeq top ns u = .ok u'
  | [], _, top, u => ⟨u, by rw [useSeq]⟩
  | n :: ns, h, top, u => by
      rw [Body.instrs] at h
      rw [useSeq]
      obtain ⟨u₁, hn⟩ :=
        useNode_of_namesLocal n (fun i hi => h i (List.mem_append_left _ hi)) top u
      rw [hn]
      exact useSeq_of_namesLocal ns (fun i hi => h i (List.mem_append_right _ hi)) top u₁

end

/-- The sets that the passes end with are those of the locals that are live. -/
theorem Machine.LivenessEnds.spec {live : List BitSet} (h : m.LivenessEnds live) :
    live.length = m.blocks.length ∧ ∀ i x, In live.toArray x i ↔ m.LiveAt x i := by
  obtain ⟨uses, n, huses, hconverges⟩ := h
  have hall := forall₂_of_mapM huses
  have hlen := hall.length_eq
  have huse {i : Nat} {b : Block} (hb : m.blocks[i]? = some b) : ∃ u, uses[i]? = some u
      ∧ useSeq true b.body ⟨.room m.func.locals.length, .room m.func.locals.length⟩ = .ok u :=
    getElem?_of_forall₂ hall hb
  have hblock {c : Block × Nat} : c ∈ m.blocks.zipIdx.reverse ↔ m.blocks[c.2]? = some c.1 := by
    rw [List.mem_reverse]
    exact List.mem_zipIdx_iff_getElem?
  have hwrites {i x : Nat} {b : Block} (hb : m.blocks[i]? = some b) :
      (uses.toArray.getD i default).writes.Mem x ↔ Body.Writes x b.body := by
    obtain ⟨u, hu, hrun⟩ := huse hb
    rw [Array.getD_eq_getD_getElem?, List.getElem?_toArray, hu]
    exact (mem_use hrun x).2
  have hplaced : Placed m.blocks.zipIdx.reverse (uses.map (·.reads)).toArray := by
    intro c hc
    rw [List.size_toArray, List.length_map, ← hlen]
    exact (List.getElem?_eq_some_iff.mp (hblock.mp hc)).1
  have hreads {i x : Nat} : In (uses.map (·.reads)).toArray x i
      ↔ ∃ b, m.blocks[i]? = some b ∧ Body.ReadsFirst x b.body := by
    constructor
    · intro hi
      have hlt := hi.lt
      rw [List.size_toArray, List.length_map, ← hlen] at hlt
      obtain ⟨u, hu, hrun⟩ := huse (List.getElem?_eq_getElem hlt)
      refine ⟨_, List.getElem?_eq_getElem hlt, ((mem_use hrun x).1.mp ?_)⟩
      rw [In, Array.getD_eq_getD_getElem?, List.getElem?_toArray, List.getElem?_map, hu] at hi
      exact hi
    · rintro ⟨b, hb, hfirst⟩
      obtain ⟨u, hu, hrun⟩ := huse hb
      rw [In, Array.getD_eq_getD_getElem?, List.getElem?_toArray, List.getElem?_map, hu]
      exact (mem_use hrun x).1.mpr hfirst
  obtain ⟨hsize, hmore, hclosed, hsound⟩ := hconverges.spec hplaced
  rw [List.size_toArray, List.size_toArray, List.length_map] at hsize
  refine ⟨hsize.trans hlen.symm, fun i x => ⟨hsound x (m.LiveAt x) ?_ ?_ i, fun hi => ?_⟩⟩
  · intro k hk
    obtain ⟨b, hb, hfirst⟩ := hreads.mp hk
    exact ⟨k, .refl, b, hb, hfirst⟩
  · intro c hc s hs hlive hnot
    have hb := hblock.mp hc
    exact hlive.of_passes ⟨c.1, hb, hs, mt (hwrites hb).mpr hnot⟩
  · refine hi.elim (fun k b hb hfirst => hmore x k (hreads.mpr ⟨b, hb, hfirst⟩)) ?_
    rintro j k ⟨b, hb, hk, hnot⟩ hin
    exact hclosed x (b, j) (hblock.mpr hb) ⟨⟨k, hk, hin⟩, mt (hwrites hb).mp hnot⟩

/-- Nothing bounds the number of passes. -/
theorem Machine.livenessEnds_of_uses {uses : List Use}
    (huses : (m.blocks.mapM fun b => useSeq true b.body
      ⟨.room m.func.locals.length, .room m.func.locals.length⟩) = .ok uses) :
    m.LivenessEnds (iterate m.func.locals.length uses.toArray m.blocks.zipIdx.reverse
      (m.blocks.length * (m.func.locals.length + 1) + 1) (uses.map (·.reads)).toArray).toList := by
  have hlen := (forall₂_of_mapM huses).length_eq
  let start := (uses.map (·.reads)).toArray
  have hsize : start.size = m.blocks.length := by
    rw [List.size_toArray, List.length_map, hlen]
  have hplaced : Placed m.blocks.zipIdx.reverse start := by
    intro c hc
    rw [hsize]
    exact List.snd_lt_of_mem_zipIdx (List.mem_reverse.mp hc)
  obtain ⟨n, hn, last, hlast⟩ : ∃ n ≤ start.size + 1, ∃ last,
      Converges m.func.locals.length uses.toArray m.blocks.zipIdx.reverse n start last :=
    exists_converges _ hplaced
  rw [hsize] at hn
  refine ⟨uses, n, huses, ?_⟩
  rw [iterate_of_converges hlast (Nat.le_trans hn (Nat.succ_le_succ (Nat.le_mul_of_pos_right _
    (Nat.succ_pos _))))]
  exact hlast

theorem Machine.livenessEnds_of_liveness {live : List BitSet} (h : m.liveness = .ok live) :
    m.LivenessEnds live := by
  obtain ⟨uses, huses, h⟩ := Program.bind_eq_ok h
  cases hclosed : m.isClosed with
  | true =>
      rw [hclosed] at h
      cases h
      exact livenessEnds_of_uses huses
  | false =>
      rw [hclosed] at h
      cases h

/-- What is found for a block is what is live there. -/
theorem Machine.LivenessEnds.contains_iff {live : List BitSet} (h : m.LivenessEnds live) {i : Nat}
    {s : BitSet} (hs : live[i]? = some s) (x : Nat) : s.contains x = true ↔ m.LiveAt x i := by
  rw [← h.spec.2 i x, BitSet.contains_iff, In, Array.getD_eq_getD_getElem?, List.getElem?_toArray,
    hs]
  rfl

theorem Machine.liveAt_solves (m : Machine) : m.SolvesLiveness fun i => { x | m.LiveAt x i } := by
  intro i b hb x
  constructor
  · rintro ⟨k, hpath, b', hb', hfirst⟩
    rcases hpath.cases_head with rfl | ⟨j, ⟨b₁, hb₁, hj, hnot⟩, hpath⟩
    · cases hb.symm.trans hb'
      exact .inl hfirst
    · cases hb.symm.trans hb₁
      exact .inr ⟨⟨j, hj, k, hpath, b', hb', hfirst⟩, hnot⟩
  · rintro (hfirst | ⟨⟨j, hj, hlive⟩, hnot⟩)
    · exact ⟨i, .refl, b, hb, hfirst⟩
    · exact LiveAt.of_passes hlive ⟨b, hb, hj, hnot⟩

theorem Machine.SolvesLiveness.least {sets : Nat → Set Nat} (h : m.SolvesLiveness sets) {x i : Nat}
    (hlive : m.LiveAt x i) : x ∈ sets i := by
  refine hlive.elim (P := fun i => x ∈ sets i) (fun k b hb hfirst => ?_) ?_
  · exact (h k b hb x).mpr (.inl hfirst)
  · rintro j k ⟨b, hb, hk, hnot⟩ hin
    exact (h j b hb x).mpr (.inr ⟨⟨k, hk, hin⟩, hnot⟩)

theorem Machine.LiveAt.lt {x i : Nat} (h : m.LiveAt x i) : i < m.blocks.length := by
  have hsome {j : Nat} {b : Block} (hb : m.blocks[j]? = some b) : j < m.blocks.length :=
    (List.getElem?_eq_some_iff.mp hb).1
  refine h.elim (fun k b hb _ => hsome hb) ?_
  rintro j k ⟨b, hb, -⟩ -
  exact hsome hb

end Exact

open Liveness in
/-- The passes over the blocks of a machine come to an end, and then a local is in the set of a
block just if it is live there; these sets are the least that solve the equations of liveness. They
are what is computed, if every block leads to blocks of the machine only. -/
theorem Machine.liveness_exact (m : Machine)
    (hnames : ∀ b ∈ m.blocks, ∀ i ∈ Body.instrs b.body, i.NamesLocal) :
    ∃ live, (m.liveness = if m.isClosed then .ok live else .error .outOfBounds)
      ∧ m.LivenessEnds live ∧ live.length = m.blocks.length
      ∧ (∀ i s, live[i]? = some s → ∀ x, s.contains x = true ↔ m.LiveAt x i)
      ∧ m.SolvesLiveness (fun i => { x | ∃ s, live[i]? = some s ∧ s.contains x = true })
      ∧ ∀ sets, m.SolvesLiveness sets →
        ∀ i s, live[i]? = some s → ∀ x, s.contains x = true → x ∈ sets i := by
  have huse : ∀ b ∈ m.blocks, ∃ u, useSeq true b.body
      ⟨.room m.func.locals.length, .room m.func.locals.length⟩ = .ok u ∧ True :=
    fun b hb => (useSeq_of_namesLocal b.body (hnames b hb) true _).imp fun _ h => ⟨h, trivial⟩
  obtain ⟨uses, huses, -⟩ := mapM_eq_ok huse
  have hends := livenessEnds_of_uses huses
  generalize hlive : (iterate m.func.locals.length uses.toArray m.blocks.zipIdx.reverse
    (m.blocks.length * (m.func.locals.length + 1) + 1) (uses.map (·.reads)).toArray).toList = live
    at hends
  have hcomputed : m.liveness = if m.isClosed then .ok live else .error .outOfBounds := by
    rw [Machine.liveness, huses, ← hlive]
    cases m.isClosed with
    | true => rfl
    | false => rfl
  have hlen := hends.spec.1
  have hexact {i : Nat} {s : BitSet} (hs : live[i]? = some s) (x : Nat) :
      s.contains x = true ↔ m.LiveAt x i := hends.contains_iff hs x
  have hsets : (fun i => { x | ∃ s, live[i]? = some s ∧ s.contains x = true })
      = fun i => { x | m.LiveAt x i } := by
    funext i
    ext x
    constructor
    · rintro ⟨s, hs, hx⟩
      exact (hexact hs x).mp hx
    · intro hx
      have hs : live[i]? = some _ := List.getElem?_eq_getElem (hlen ▸ hx.lt)
      exact ⟨_, hs, (hexact hs x).mpr hx⟩
  refine ⟨live, hcomputed, hends, hlen, fun i s hs => hexact hs, ?_, fun sets hsolves i s hs x hx => ?_⟩
  · rw [hsets]
    exact m.liveAt_solves
  · exact hsolves.least ((hexact hs x).mp hx)

/-! Blocks that go round: the first writes local 0 only inside a conditional, the second reads
locals 0 and 1 inside a conditional. -/

def revolving : Machine where
  func := default
  blocks :=
    [⟨0, [], [.instr ⟨0x41, .i32 0⟩, .ifThen ⟨[], []⟩ [.instr ⟨0x41, .i32 0⟩,
        .instr ⟨0x21, .localVar 0⟩], .instr ⟨0x41, .i32 0⟩, .instr ⟨0x21, .localVar 1⟩], [],
        .goto ⟨1, 0, 0⟩⟩,
      ⟨1, [], [.instr ⟨0x41, .i32 0⟩, .ifThen ⟨[], []⟩ [.instr ⟨0x20, .localVar 0⟩,
        .instr ⟨0x21, .localVar 1⟩, .instr ⟨0x20, .localVar 1⟩, .instr ⟨0x21, .localVar 0⟩],
        .instr ⟨0x41, .i32 0⟩], [.i32], .branch ⟨0, 0, 0⟩ ⟨2, 0, 0⟩⟩,
      ⟨2, [], [.instr ⟨0x20, .localVar 2⟩], [.i32], .ret [.i32]⟩]

/-- The theorem at these blocks. -/
theorem Machine.liveness_exact_revolving :
    (∀ b ∈ revolving.blocks, ∀ i ∈ Body.instrs b.body, i.NamesLocal)
      ∧ ∃ live, revolving.liveness = .ok live
        ∧ live.map (·.toList) = [[0, 2], [0, 1, 2], [2]]
        ∧ revolving.LiveAt 0 0 ∧ ¬ revolving.LiveAt 1 0 ∧ revolving.LiveAt 1 1 := by
  have hnames : ∀ b ∈ revolving.blocks, ∀ i ∈ Body.instrs b.body, i.NamesLocal := by
    have hconst : Operation.ofOpcode 0x41 = .i32Const := by decide
    simp [revolving, Body.instrs, Node.instrs, Instr.NamesLocal, Instr.operation, hconst]
  refine ⟨hnames, ?_⟩
  obtain ⟨live, hlive, -, -, hexact, -⟩ := Machine.liveness_exact revolving hnames
  have hclosed : revolving.isClosed = true := by decide
  rw [if_pos hclosed] at hlive
  have hsets : (revolving.liveness.toOption.map fun live => live.map (·.toList))
      = some [[0, 2], [0, 1, 2], [2]] := by decide +kernel
  rw [hlive] at hsets
  have hlists : live.map (·.toList) = [[0, 2], [0, 1, 2], [2]] := Option.some.inj hsets
  have hat {i x : Nat} {xs : List Nat} (hi : [[0, 2], [0, 1, 2], [2]][i]? = some xs) :
      revolving.LiveAt x i ↔ x ∈ xs := by
    rw [← hlists, List.getElem?_map] at hi
    obtain ⟨s, hs, rfl⟩ := Option.map_eq_some_iff.mp hi
    rw [← hexact i s hs x, BitSet.contains_iff, BitSet.mem_toList]
  refine ⟨live, hlive, hlists, (hat rfl).mpr ?_, mt (hat rfl).mp ?_, (hat rfl).mpr ?_⟩ <;> decide

end WasmShader
