import WasmShader.Proofs.BlockCode
import WasmShader.Proofs.LiveLocals
import WasmShader.Proofs.Splitting

/-!
# Frames of a machine

The frames of a sound machine can be laid out: every payload holds locals of the function, each
once, and the operands on entry to its block. What can go wrong is only that a block pushes
more words than the stack has, which is reported as a capacity that is too small.
-/

namespace WasmShader

/-- The frames of a machine with payloads that are right for the blocks, in a stack that no
single push exceeds. -/
structure Frames.Fit (fr : Frames) (m : Machine) (l : Layout) (stackWords : Nat) : Prop where
  machine : fr.machine = m
  layout : fr.layout = l
  formed : fr.Formed
  pushes : ∀ b ∈ m.blocks, fr.pushWords b ≤ stackWords

theorem bind_eq_of_ok {ε α β : Type} {x : Except ε α} {a : α} {k : α → Except ε β}
    (h : x = .ok a) : (x >>= k) = k a := by
  rw [h]
  rfl

theorem mapM_entry {f : Function} {locals : List Nat} (h : ∀ i ∈ locals, i < f.locals.length) :
    ∃ saved, locals.mapM (entry f.locals) = .ok saved
      ∧ List.Forall₂ (fun i t => f.locals[i]? = some t) locals saved := by
  refine mapM_eq_ok fun i hi => ?_
  have ht := List.getElem?_eq_getElem (h i hi)
  exact ⟨_, by rw [entry, ht], ht⟩

theorem known_of_locals {f : Function} (hknown : AllKnown f.locals) {locals : List Nat}
    {saved : List ValueType}
    (h : List.Forall₂ (fun i t => f.locals[i]? = some t) locals saved) : AllKnown saved := by
  induction h with
  | nil => exact fun _ ht => by cases ht
  | cons hi _ ih => exact List.forall_mem_cons.mpr ⟨hknown _ (List.mem_of_getElem? hi), ih⟩

/-- The payload of a block of live locals. -/
theorem payloadOf_total {f : Function} (hknown : AllKnown f.locals)
    (hparams : f.type.params.length ≤ f.locals.length) (l : Layout) {b : Block}
    (hentry : AllKnown b.entry) {live : BitSet} (hlive : Liveness.Within f.locals.length live) :
    ∃ pl, Frames.payloadOf f l b live = .ok pl ∧ pl.Formed l f b.entry := by
  let locals := if b.index = 0 then List.range f.type.params.length else live.toList
  have hnodup : locals.Nodup := by
    dsimp only [locals]
    split
    · exact List.nodup_range
    · exact live.nodup_toList
  have hlocals : ∀ i ∈ locals, i < f.locals.length := by
    dsimp only [locals]
    split
    · intro i hi
      have := List.mem_range.mp hi
      omega
    · exact fun i hi => hlive i (BitSet.mem_toList.mp hi)
  obtain ⟨saved, hsaved, hall⟩ := mapM_entry hlocals
  refine ⟨⟨locals, saved ++ b.entry, l.offsetsFrom 0 (saved ++ b.entry), l.sizeOf (saved ++ b.entry)⟩,
    ?_, ⟨hnodup, ⟨saved, hall, rfl⟩, (known_of_locals hknown hall).append hentry, rfl, rfl⟩⟩
  have hrun : Frames.payloadOf f l b live = (locals.mapM (entry f.locals) >>= fun saved =>
      l.offsets (saved ++ b.entry) >>= fun r => .ok ⟨locals, saved ++ b.entry, r.1, r.2⟩) := rfl
  rw [hrun, bind_eq_of_ok hsaved,
    bind_eq_of_ok (l.offsets_eq_ok ((known_of_locals hknown hall).append hentry))]

/-! ## Pushes -/

theorem Terminator.Typed.args_known {p : Program} {m : Machine} {t : Terminator}
    {stack : TypeStack} (h : t.Typed p m stack) : AllKnown t.args := by
  cases h with
  | call htakes _ => exact htakes.known.params
  | host htakes _ => exact htakes.known.params
  | _ => exact List.forall_mem_nil _

/-- The check of a push answers: the push fits, or the stack is too small. -/
theorem Frames.checkPush_answers {fr : Frames} (hformed : fr.Formed) (stackWords : Nat) {b : Block}
    (hsuccessors : ∀ i ∈ b.term.successors, i < fr.machine.blocks.length)
    (hargs : AllKnown b.term.args) :
    (fr.checkPush stackWords b = .ok () ∧ fr.pushWords b ≤ stackWords)
      ∨ ∃ e, fr.checkPush stackWords b = .error (.failed e) ∧ e.isCapacity = true := by
  obtain ⟨payloads, hpayloads, -⟩ :
      ∃ pls, b.term.successors.mapM (entry fr.payloads) = .ok pls
        ∧ List.Forall₂ (fun i pl => fr.payload i = pl) b.term.successors pls :=
    mapM_eq_ok fun i hi => ⟨_, hformed.entry_payload (hsuccessors i hi), rfl⟩
  unfold Frames.checkPush
  rw [bind_eq_of_ok hpayloads, bind_eq_of_ok (Layout.requireKnown_eq_ok hargs)]
  dsimp only
  split
  · exact .inr ⟨_, rfl, rfl⟩
  · next hle => exact .inl ⟨rfl, Nat.le_of_not_lt hle⟩

/-- Checks that each pass or report a capacity that is too small. -/
theorem forM_answers {α : Type} {k : α → Except Abort Unit} {P : α → Prop} {xs : List α}
    (h : ∀ x ∈ xs, (k x = .ok () ∧ P x) ∨ ∃ e, k x = .error (.failed e) ∧ e.isCapacity = true) :
    (xs.forM k = .ok () ∧ ∀ x ∈ xs, P x)
      ∨ ∃ e, xs.forM k = .error (.failed e) ∧ e.isCapacity = true := by
  induction xs with
  | nil => exact .inl ⟨rfl, List.forall_mem_nil _⟩
  | cons x xs ih =>
      obtain ⟨hx, hxs⟩ := List.forall_mem_cons.mp h
      have hrun : (x :: xs).forM k = (k x >>= fun _ => xs.forM k) := rfl
      rw [hrun]
      rcases hx with ⟨hx, hP⟩ | ⟨e, he, hcap⟩
      · rw [bind_eq_of_ok hx]
        exact (ih hxs).imp_left fun hrest => ⟨hrest.1, List.forall_mem_cons.mpr ⟨hP, hrest.2⟩⟩
      · exact .inr ⟨e, by rw [he]; rfl, hcap⟩

/-! ## The frames -/

/-- The frames of a sound machine are laid out, or the stack is too small. -/
theorem Frames.build_total {p : Program} {a : Analysis} {kept : Nat → Prop} {hosts : List HostFunc}
    {m : Machine} (hm : m.Sound p a kept hosts) (hlocals : AllKnown m.func.locals)
    (hparams : m.func.type.params.length ≤ m.func.locals.length) (l : Layout) (stackWords : Nat) :
    (∃ fr, Frames.build m l stackWords = .ok fr ∧ fr.Fit m l stackWords)
      ∨ ∃ e, Frames.build m l stackWords = .error (.failed e) ∧ e.isCapacity = true := by
  obtain ⟨live, hlive, hlen, hwithin⟩ := Machine.liveness_total (fun b hb => (hm.typed b hb).body) hm.isClosed
  have htotal : ∀ x ∈ m.blocks.zip live, ∃ pl, Frames.payloadOf m.func l x.1 x.2 = .ok pl
      ∧ pl.Formed l m.func x.1.entry := fun x hx =>
    payloadOf_total hlocals hparams l (hm.entries x.1 (List.of_mem_zip hx).1)
      (hwithin x.2 (List.of_mem_zip hx).2)
  obtain ⟨payloads, hpayloads, hall⟩ := mapM_eq_ok htotal
  let fr : Frames := ⟨m, l, payloads⟩
  have hformed : fr.Formed := by
    refine ⟨?_, hm.index, fun i b hb => ?_⟩
    · rw [← hall.length_eq, List.length_zip, hlen, Nat.min_self]
    have hlt : i < live.length := by
      rw [hlen]
      exact (List.getElem?_eq_some_iff.mp hb).1
    have hzip : (m.blocks.zip live)[i]? = some (b, live[i]) :=
      List.getElem?_zip_eq_some.mpr ⟨hb, List.getElem?_eq_getElem hlt⟩
    obtain ⟨pl, hpl, hR⟩ := getElem?_of_forall₂ hall hzip
    rw [Frames.payload, List.getD_eq_getElem?_getD, hpl]
    exact hR
  have hrun : Frames.build m l stackWords = _ := bind_eq_of_ok hlive
  rw [hrun.trans (bind_eq_of_ok hpayloads)]
  have hchecks := forM_answers (k := fr.checkPush stackWords) fun b hb => fr.checkPush_answers hformed stackWords
    (hm.typed b hb).term.successor_lt (hm.typed b hb).term.args_known
  dsimp only
  rcases hchecks with ⟨hok, hpushes⟩ | ⟨e, he, hcap⟩
  · exact .inl ⟨fr, bind_eq_of_ok hok, rfl, rfl, hformed, hpushes⟩
  · exact .inr ⟨e, by rw [he]; rfl, hcap⟩

end WasmShader
