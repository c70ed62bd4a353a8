import WasmShader.Machine.Frame
import WasmShader.Proofs.SetWords
import WasmShader.Proofs.Typing

/-!
# Live locals are locals

The sets of live locals of a machine are made of the locals that its blocks read, so for typed blocks
they hold numbers of locals only.
-/

namespace WasmShader

namespace Liveness

/-! ## What blocks read -/

/-- All members are numbers of locals. -/
def Within (n : Nat) (s : BitSet) : Prop := ∀ v, s.Mem v → v < n

theorem within_room (n room : Nat) : Within n (.room room) :=
  fun v hv => absurd hv (BitSet.not_mem_room room v)

variable {p : Program} {f : Function} {n : Nat}

/-- The use of locals by a typed instruction is known, and reads locals of the function. -/
theorem useInstr_total {labels : Program.Labels} {i : Instr} {types : TypeStack}
    {out : Option TypeStack} (h : p.TypedInstr f labels i types out) (top : Bool) {u : Use}
    (hu : Within f.locals.length u.reads) :
    ∃ u', useInstr top i u = .ok u' ∧ Within f.locals.length u'.reads := by
  unfold useInstr
  cases h with
  | localGet hop himm ht =>
      rw [hop, himm]
      refine ⟨_, rfl, ?_⟩
      split
      · exact hu
      · intro v hv
        rcases BitSet.mem_insert.mp hv with hv | rfl
        · exact hu v hv
        · exact (List.getElem?_eq_some_iff.mp ht).1
  | localSet hop himm | localTee hop himm =>
      rw [hop, himm]
      refine ⟨_, rfl, ?_⟩
      split
      · exact hu
      · exact hu
  | constant hv => cases hv with
    | i32 hop | i64 hop | f32 hop | f64 hop | v128 hop => rw [hop]; exact ⟨u, rfl, hu⟩
  | numeric hop | nop hop | unreachable hop | drop hop | select hop | globalGet hop
  | globalSet hop | call hop | callIndirect hop | memorySize hop | memoryGrow hop | br hop
  | brIf hop | brTable hop | ret hop => rw [hop]; exact ⟨u, rfl, hu⟩

mutual

theorem useNode_total : (n : Node) → {labels : Program.Labels} → {types : TypeStack} →
    {out : Option TypeStack} → p.TypedNode f labels n types out → (top : Bool) → {u : Use} →
    Within f.locals.length u.reads →
    ∃ u', useNode top n u = .ok u' ∧ Within f.locals.length u'.reads
  | .instr i, labels, types, out, h, top, u, hu => by
      rw [useNode]
      cases h with
      | instr hi => exact useInstr_total hi top hu
  | .block loop sig body, labels, types, out, h, top, u, hu => by
      rw [useNode]
      cases h with
      | block _ hbody => exact useSeq_total body hbody false hu
  | .ifThen sig body, labels, types, out, h, top, u, hu => by
      rw [useNode]
      cases h with
      | ifThen _ _ hbody => exact useSeq_total body hbody false hu
  | .ifElse sig body alternative, labels, types, out, h, top, u, hu => by
      rw [useNode]
      cases h with
      | ifElse _ hbody halternative =>
          obtain ⟨u₁, hrun, hu₁⟩ := useSeq_total body hbody false hu
          rw [hrun]
          exact useSeq_total alternative halternative false hu₁

theorem useSeq_total : (ns : List Node) → {labels : Program.Labels} → {types : TypeStack} →
    {results : List ValueType} → p.TypedSeq f labels ns types results → (top : Bool) → {u : Use} →
    Within f.locals.length u.reads →
    ∃ u', useSeq top ns u = .ok u' ∧ Within f.locals.length u'.reads
  | [], labels, types, results, h, top, u, hu => ⟨u, by rw [useSeq], hu⟩
  | n :: ns, labels, types, results, h, top, u, hu => by
      rw [useSeq]
      cases h with
      | cons hn hns =>
          obtain ⟨u₁, hrun, hu₁⟩ := useNode_total n hn top hu
          rw [hrun]
          exact useSeq_total ns hns top hu₁
      | last hn =>
          obtain ⟨u₁, hrun, hu₁⟩ := useNode_total n hn top hu
          rw [hrun]
          exact ⟨u₁, by change useSeq top [] u₁ = _; rw [useSeq], hu₁⟩

end

/-! ## Passes -/

/-- The sets of a machine with a number of blocks, each of numbers of locals. -/
structure Bounded (n blocks : Nat) (live : Array BitSet) : Prop where
  size : live.size = blocks
  within : ∀ s ∈ live, Within n s

theorem Bounded.getD {blocks : Nat} {live : Array BitSet} (h : Bounded n blocks live) (i : Nat) :
    Within n (live.getD i default) := by
  rw [Array.getD_eq_getD_getElem?]
  cases hget : live[i]? with
  | none => exact within_room n 0
  | some s => exact h.within s (Array.mem_of_getElem? hget)

theorem within_liveOut {blocks : Nat} {live : Array BitSet} (h : Bounded n blocks live)
    (locals : Nat) (b : Block) : Within n (liveOut locals live b) := by
  have hfold (ss : List Nat) {s : BitSet} (hs : Within n s) :
      Within n (ss.foldl (fun out s => (out.union (live.getD s default)).1) s) := by
    induction ss generalizing s with
    | nil => exact hs
    | cons k ss ih =>
        refine ih fun v hv => ?_
        rcases BitSet.mem_union.mp hv with hv | hv
        · exact hs v hv
        · exact h.getD k v hv
  exact hfold b.term.successors (within_room n locals)

theorem bounded_pass {blocks : Nat} (locals : Nat) (uses : Array Use) (bs : List (Block × Nat))
    {acc : Array BitSet × Bool} (h : Bounded n blocks acc.1) :
    Bounded n blocks (pass locals uses bs acc).1 := by
  induction bs generalizing acc with
  | nil => exact h
  | cons b bs ih =>
      obtain ⟨b, i⟩ := b
      obtain ⟨live, changed⟩ := acc
      rw [pass]
      refine ih ⟨?_, fun s hs => ?_⟩
      · rw [← h.size]
        exact Array.size_setIfInBounds
      · rcases Array.mem_or_eq_of_mem_setIfInBounds hs with hs | rfl
        · exact h.within s hs
        · intro v hv
          rcases BitSet.mem_unionMinus.mp hv with hv | ⟨hv, -⟩
          · exact h.getD i v hv
          · exact within_liveOut h locals b v hv

theorem bounded_iterate {blocks : Nat} (locals : Nat) (uses : Array Use) (bs : List (Block × Nat))
    (fuel : Nat) {live : Array BitSet} (h : Bounded n blocks live) :
    Bounded n blocks (iterate locals uses bs fuel live) := by
  induction fuel generalizing live with
  | zero => exact h
  | succ fuel ih =>
      have hpass : Bounded n blocks (pass locals uses bs (live, false)).1 :=
        bounded_pass locals uses bs h
      rw [iterate]
      generalize pass locals uses bs (live, false) = acc at hpass
      obtain ⟨live', changed⟩ := acc
      dsimp only
      split
      · exact ih hpass
      · exact hpass

end Liveness

/-- A step for each entry that succeeds. -/
theorem mapM_eq_ok {ε α β : Type} {k : α → Except ε β} {xs : List α} {R : α → β → Prop}
    (h : ∀ x ∈ xs, ∃ y, k x = .ok y ∧ R x y) :
    ∃ ys, xs.mapM k = .ok ys ∧ List.Forall₂ R xs ys := by
  induction xs with
  | nil => exact ⟨[], rfl, .nil⟩
  | cons x xs ih =>
      obtain ⟨y, hy, hR⟩ := h x List.mem_cons_self
      obtain ⟨ys, hys, hall⟩ := ih fun x hx => h x (List.mem_cons_of_mem _ hx)
      refine ⟨y :: ys, ?_, .cons hR hall⟩
      rw [List.mapM_cons, hy, hys]
      rfl

theorem forall_mem_of_forall₂ {α β : Type} {Q : β → Prop} {xs : List α} {ys : List β}
    (h : List.Forall₂ (fun _ y => Q y) xs ys) : ∀ y ∈ ys, Q y := by
  induction h with
  | nil => exact fun _ hy => by cases hy
  | cons hQ _ ih => exact List.forall_mem_cons.mpr ⟨hQ, ih⟩

/-- The live locals of a machine with typed blocks are locals of its function. -/
theorem Machine.liveness_total {p : Program} {m : Machine}
    (h : ∀ b ∈ m.blocks, p.TypedSeq m.func [] b.body b.entry b.stack)
    (hclosed : m.isClosed = true) :
    ∃ live, m.liveness = .ok live ∧ live.length = m.blocks.length
      ∧ ∀ s ∈ live, Liveness.Within m.func.locals.length s := by
  let locals := m.func.locals.length
  obtain ⟨uses, huses, hreads⟩ := mapM_eq_ok fun b hb =>
    Liveness.useSeq_total (u := ⟨.room locals, .room locals⟩) b.body (h b hb) true
      (Liveness.within_room _ _)
  have hstart : Liveness.Bounded locals m.blocks.length (uses.map (·.reads)).toArray := by
    refine ⟨?_, fun s hs => ?_⟩
    · rw [List.size_toArray, List.length_map, hreads.length_eq]
    · obtain ⟨u, hu, rfl⟩ := List.mem_map.mp (List.mem_toArray.mp hs)
      exact forall_mem_of_forall₂ hreads u hu
  have hlive := Liveness.bounded_iterate locals uses.toArray m.blocks.zipIdx.reverse
    (m.blocks.length * (locals + 1) + 1) hstart
  refine ⟨_, ?_, ?_, fun s hs => hlive.within s (Array.mem_toList_iff.mp hs)⟩
  · rw [Machine.liveness, huses, hclosed]
    rfl
  · rw [Array.length_toList, hlive.size]

end WasmShader
