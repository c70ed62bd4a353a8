import WasmShader.Proofs.BodyCode
import WasmShader.Proofs.MachineRun

/-!
# Blocks do what the tree does

From where the blocks take up the work of a node, with the operands of the constructs around it
below those that the node finds, they end as the evaluation of the node and what comes behind
it. What comes behind is told by its end (`Accepts`): passed by, a node goes on with what is left
of its block, and a branch goes on in the block of its label. The statement is a comparison of
one side with the other, so that with `Compares` it holds both ways round.
-/

namespace WasmShader.Structured

open Execution (Datum FitsAll)
open Emit (leaveEnding evalNode_block evalNode_ifThen evalNode_ifElse)
open Split (Label NodeCode SeqCode EdgeTo BranchTo)

variable {σ : Type} {p : Program} {l : Layout} {f : Function} {oracle : Oracle σ}

/-! ## Operands below -/

/-- The end of code that finds more operands, below those it knows of. -/
def framed (outer : List Datum) : Ending (Store σ) Flow → Ending (Store σ) Flow
  | (.ok (.next stack), st) => (.ok (.next (outer ++ stack)), st)
  | r => r

theorem askTop_framed (r : Request) (outer as : List Datum) {bs : List Datum} {n : Nat}
    (hn : bs.length = n) (st : Store σ) :
    askTop oracle r n (outer ++ (as ++ bs)) st
      = (askTop oracle r n (as ++ bs) st).map (framed outer) := by
  rw [← List.append_assoc, askTop_append r _ bs hn, askTop_append r as bs hn, Option.map_map]
  congr 1
  funext asked
  obtain ⟨answer, shared⟩ := asked
  cases answer with
  | ok results => exact congrArg (fun s => (Except.ok (Flow.next s), _)) (List.append_assoc ..)
  | error e => rfl

theorem leaveEnding_append (outer kept : List Datum) (n : Nat) (r : Ending (Store σ) Flow) :
    leaveEnding (outer ++ kept) n r = framed outer (leaveEnding kept n r) := by
  obtain ⟨r, st⟩ := r
  cases r with
  | error e => rfl
  | ok flow =>
      cases flow with
      | next stack =>
          exact congrArg (fun s => (Except.ok (Flow.next s), st)) (List.append_assoc ..)
      | branch depth stack =>
          cases depth with
          | zero => exact congrArg (fun s => (Except.ok (Flow.next s), st)) (List.append_assoc ..)
          | succ depth => rfl
      | ret stack => rfl

/-- An instruction that control passes does not look at the operands below those it takes. -/
theorem evalInstr_framed {i : Instr} {types out : TypeStack}
    (h : p.TypedInstr f [] i types (some out)) {stack : List Datum} (hfits : FitsAll l types stack)
    {st : Store σ} (hst : st.Fits p l f) (outer : List Datum) :
    evalInstr p l oracle i (outer ++ stack) st
      = (evalInstr p l oracle i stack st).map (framed outer) := by
  cases h with
  | numeric hop =>
      obtain ⟨as, bs, rfl, -, hbs⟩ := hfits.of_append
      rw [← List.append_assoc, evalNumeric hop _ hbs.length_eq.symm,
        evalNumeric hop as hbs.length_eq.symm]
      cases numericResult l _ bs with
      | ok d => dsimp only; rw [List.append_assoc]; rfl
      | error e => cases e <;> rfl
  | nop hop => rw [evalNop hop, evalNop hop]; rfl
  | constant hv => rw [evalConstant hv, evalConstant hv, List.append_assoc]; rfl
  | drop hop =>
      obtain ⟨as, bs, rfl, -, hbs⟩ := hfits.of_append
      obtain ⟨d, rfl, -⟩ := hbs.of_single
      rw [← List.append_assoc, evalDrop hop, evalDrop hop]
      rfl
  | select hop =>
      obtain ⟨as, bs, rfl, -, hbs⟩ := hfits.of_append
      obtain ⟨a, bs', -, hbs', rfl⟩ := List.forall₂_cons_left_iff.mp hbs
      obtain ⟨b, bs'', -, hbs'', rfl⟩ := List.forall₂_cons_left_iff.mp hbs'
      obtain ⟨c, rfl, -⟩ := FitsAll.of_single hbs''
      rw [← List.append_assoc, evalSelect hop, evalSelect hop, List.append_assoc]
      rfl
  | localGet hop himm ht =>
      obtain ⟨d, hd, -⟩ := hst.locals.getElem? ht
      rw [evalLocalGet hop himm _ hd, evalLocalGet hop himm _ hd, List.append_assoc]
      rfl
  | localSet hop himm ht =>
      obtain ⟨as, bs, rfl, -, hbs⟩ := hfits.of_append
      obtain ⟨d, rfl, -⟩ := hbs.of_single
      rw [← List.append_assoc, evalLocalSet hop himm, evalLocalSet hop himm]
      rfl
  | localTee hop himm ht =>
      obtain ⟨as, bs, rfl, -, hbs⟩ := hfits.of_append
      obtain ⟨d, rfl, -⟩ := hbs.of_single
      rw [← List.append_assoc, evalLocalTee hop himm, evalLocalTee hop himm, List.append_assoc]
      rfl
  | globalGet hop himm hg =>
      obtain ⟨d, hd, -⟩ := getElem?_global hst.globals hg
      rw [evalGlobalGet hop himm _ hd, evalGlobalGet hop himm _ hd, List.append_assoc]
      rfl
  | globalSet hop himm hg hmutable =>
      obtain ⟨as, bs, rfl, -, hbs⟩ := hfits.of_append
      obtain ⟨d, rfl, -⟩ := hbs.of_single
      rw [← List.append_assoc, evalGlobalSet hop himm, evalGlobalSet hop himm]
      rfl
  | call hop himm hsig =>
      obtain ⟨as, bs, rfl, -, hbs⟩ := hfits.of_append
      rw [evalCall hop himm hsig, evalCall hop himm hsig]
      exact askTop_framed _ outer as hbs.length_eq.symm st
  | callIndirect hop himm ht herr =>
      obtain ⟨as, bs, rfl, -, hbs⟩ := hfits.of_append
      rw [evalCallIndirect hop himm ht, evalCallIndirect hop himm ht]
      refine askTop_framed _ outer as ?_ st
      rw [← hbs.length_eq, List.length_append]
      rfl
  | memorySize hop =>
      rw [evalMemorySize hop, evalMemorySize hop, ← List.append_nil stack]
      exact askTop_framed _ outer stack rfl st
  | memoryGrow hop =>
      obtain ⟨as, bs, rfl, -, hbs⟩ := hfits.of_append
      rw [evalMemoryGrow hop, evalMemoryGrow hop]
      exact askTop_framed _ outer as hbs.length_eq.symm st
  | brIf _ _ hlabel => cases hlabel

/-- Nor does a node that stays in its block. -/
theorem evalNode_framed {n : Node} {types out : TypeStack}
    (h : p.TypedNode f [] n types (some out)) {stack : List Datum} (hfits : FitsAll l types stack)
    {st : Store σ} (hst : st.Fits p l f) (outer : List Datum) :
    evalNode p l oracle n (outer ++ stack) st
      = (evalNode p l oracle n stack st).map (framed outer) := by
  have hleave (mid : List Datum) (k : Nat) :
      leaveEnding (σ := σ) (outer ++ mid) k = framed outer ∘ leaveEnding mid k :=
    funext (leaveEnding_append outer mid k)
  cases h with
  | instr hi =>
      rw [evalNode, evalNode]
      exact evalInstr_framed hi hfits hst outer
  | block hsig _ =>
      obtain ⟨mid, args, rfl, -, hargs⟩ := hfits.of_append
      rw [← List.append_assoc, evalNode_block _ _ _ _ hargs.length_eq.symm,
        evalNode_block _ _ _ _ hargs.length_eq.symm, hleave, Option.map_map]
  | ifThen hsig _ _ =>
      obtain ⟨rest, cs, rfl, hrest, hcs⟩ := hfits.of_append
      obtain ⟨mid, args, rfl, -, hargs⟩ := hrest.of_append
      obtain ⟨c, rfl, -⟩ := hcs.of_single
      rw [← List.append_assoc, ← List.append_assoc, evalNode_ifThen _ _ _ hargs.length_eq.symm,
        evalNode_ifThen _ _ _ hargs.length_eq.symm, hleave, Option.map_map]
  | ifElse hsig _ _ =>
      obtain ⟨rest, cs, rfl, hrest, hcs⟩ := hfits.of_append
      obtain ⟨mid, args, rfl, -, hargs⟩ := hrest.of_append
      obtain ⟨c, rfl, -⟩ := hcs.of_single
      rw [← List.append_assoc, ← List.append_assoc,
        evalNode_ifElse _ _ _ _ hargs.length_eq.symm,
        evalNode_ifElse _ _ _ _ hargs.length_eq.symm, hleave, Option.map_map]

/-! ## Behind the code -/

/-- Goes on where a branch to the label leads, with the operands it carries. -/
def jump (ρ : Going σ) (lab : Label) (outer carried : List Datum) (st : Store σ) :
    Option (Ending (Store σ) (List Datum)) :=
  match lab.target with
  | .func => some (.ok carried, st)
  | .block index height => ρ index (outer.take height ++ carried) st

/-- The labels lead no further up than the operands of the constructs around the code. -/
def LabelsWithin (labels : List Label) (outer : List Datum) : Prop :=
  ∀ lab ∈ labels, ∀ index height, lab.target = .block index height → height ≤ outer.length

section Accepts

variable {le : Option (Ending (Store σ) (List Datum)) → Option (Ending (Store σ) (List Datum)) →
  Prop}

/-- What comes behind some code, given its end, is compared with where the blocks go on: with the
rest `o` if control passes the code, and with the block of a label. -/
structure Accepts (p : Program) (l : Layout) (f : Function) (oracle : Oracle σ)
    (le : Option (Ending (Store σ) (List Datum)) → Option (Ending (Store σ) (List Datum)) → Prop)
    (ρ : Going σ) (labels : List Label) (outer : List Datum) (out : TypeStack)
    (o : Option BlockRest) (κ : Ending (Store σ) Flow → Option (Ending (Store σ) (List Datum))) :
    Prop where
  next : ∀ t, o = some t → ∀ stack st, FitsAll l out stack → st.Fits p l f →
    le (resume p l oracle ρ t (outer ++ stack) st) (κ (.ok (.next stack), st))
  branch : ∀ (depth : Nat) lab, labels[depth]? = some lab → ∀ below carried st,
    FitsAll l lab.types carried → st.Fits p l f →
    le (jump ρ lab outer carried st) (κ (.ok (.branch depth (below ++ carried)), st))
  ret : ∀ below results st, FitsAll l f.type.results results → st.Fits p l f →
    le (some (.ok results, st)) (κ (.ok (.ret (below ++ results)), st))
  error : ∀ e st, le (some (.error e, st)) (κ (.error e, st))

variable {blocks : Nat → Option BlockRest} {R : Nat → Going σ} {labels : List Label}
  {outer mid : List Datum} {types out : TypeStack} {o : Option BlockRest} {i j : Nat}
  {κ : Ending (Store σ) Flow → Option (Ending (Store σ) (List Datum))}

theorem Compares.le_of_le (hR : Compares p l oracle blocks le R) (hij : i ≤ j) (k : Nat)
    (stack : List Datum) (st : Store σ) : le (R i k stack st) (R j k stack st) := by
  induction hij with
  | refl => exact hR.refl _
  | step _ ih => exact hR.trans ih (hR.less ..)

theorem Compares.resume_le (hR : Compares p l oracle blocks le R) (hij : i ≤ j) (t : BlockRest)
    (stack : List Datum) (st : Store σ) :
    le (resume p l oracle (R i) t stack st) (resume p l oracle (R j) t stack st) := by
  refine hR.bind fun left _ => ?_
  obtain ⟨r, st⟩ := left
  cases r with
  | error e => exact hR.refl _
  | ok exit =>
      cases exit with
      | goto target stack => exact hR.le_of_le hij ..
      | ret results => exact hR.refl _
      | transfer callee sig next rest args =>
          refine hR.bind fun asked _ => ?_
          obtain ⟨answer, shared⟩ := asked
          cases answer with
          | ok results => exact hR.le_of_le hij ..
          | error e => exact hR.refl _

theorem Accepts.of_le (hR : Compares p l oracle blocks le R) (hij : i ≤ j)
    (h : Accepts p l f oracle le (R j) labels outer out o κ) :
    Accepts p l f oracle le (R i) labels outer out o κ := by
  refine ⟨fun t ht stack st hfits hst => hR.trans (hR.resume_le hij ..) (h.next t ht _ _ hfits hst),
    fun depth lab hlab below carried st hfits hst => hR.trans ?_ (h.branch _ _ hlab _ _ _ hfits hst),
    h.ret, h.error⟩
  unfold jump
  cases lab.target with
  | func => exact hR.refl _
  | block index height => exact hR.le_of_le hij ..

/-- Going on behind a sequence whose first node passes its end on. -/
theorem Accepts.goOn {ns : List Node} {out' : TypeStack} {o' : Option BlockRest}
    (h : Accepts p l f oracle le (R i) labels outer out o κ)
    (hnext : ∀ t, o' = some t → ∀ stack st, FitsAll l out' stack → st.Fits p l f →
      le (resume p l oracle (R i) t (outer ++ stack) st)
        ((evalSeq p l oracle ns stack st).bind κ)) :
    Accepts p l f oracle le (R i) labels outer out' o'
      fun r => (goOn (evalSeq p l oracle ns) r).bind κ :=
  ⟨hnext, h.branch, h.ret, h.error⟩

theorem take_append_mid (hwithin : LabelsWithin labels outer) {lab : Label} (hlab : lab ∈ labels)
    {ρ : Going σ} {carried : List Datum} {st : Store σ} :
    jump ρ lab (outer ++ mid) carried st = jump ρ lab outer carried st := by
  unfold jump
  cases htarget : lab.target with
  | func => rfl
  | block index height =>
      exact congrArg (fun s => ρ index (s ++ carried) st)
        (List.take_append_of_le_length (hwithin lab hlab index height htarget))

theorem LabelsWithin.cons (h : LabelsWithin labels outer) (k : Nat) (types : List ValueType) :
    LabelsWithin (⟨.block k (outer ++ mid).length, types⟩ :: labels) (outer ++ mid) := by
  intro lab hlab index height htarget
  rcases List.mem_cons.mp hlab with rfl | hlab
  · cases htarget
    exact Nat.le_refl _
  · have := h lab hlab index height htarget
    rw [List.length_append]
    omega

theorem jump_block {ρ : Going σ} (k : Nat) (types : List ValueType) (carried : List Datum)
    (st : Store σ) :
    jump ρ ⟨.block k outer.length, types⟩ outer carried st = ρ k (outer ++ carried) st := by
  change ρ k (outer.take outer.length ++ carried) st = _
  rw [List.take_length]

/-- Inside a construct that is left for the block behind it. -/
theorem Accepts.leave (hR : Compares p l oracle blocks le R) (hwithin : LabelsWithin labels outer)
    {midTypes : TypeStack} (hmid : FitsAll l midTypes mid) {results : List ValueType} {join : Nat}
    {behind : BlockRest} (hbehind : blocks join = some behind)
    (h : Accepts p l f oracle le (R i) labels outer (midTypes ++ results) (some behind) κ)
    (ho : ∀ t, o = some t → t = ⟨[], .goto ⟨join, (outer ++ mid).length, results.length⟩⟩) :
    Accepts p l f oracle le (R i) (⟨.block join (outer ++ mid).length, results⟩ :: labels)
      (outer ++ mid) results o fun r => κ (leaveEnding mid results.length r) := by
  have hjoin {stack : List Datum} {st : Store σ} (hfits : FitsAll l results stack)
      (hst : st.Fits p l f) :
      le (R i join (outer ++ mid ++ stack) st) (κ (.ok (.next (mid ++ stack)), st)) := by
    rw [List.append_assoc]
    exact hR.trans (hR.enter hbehind ..) (h.next _ rfl _ _ (hmid.append hfits) hst)
  refine ⟨fun t ht stack st hfits hst => ?_, fun depth lab hlab below carried st hfits hst => ?_,
    h.ret, h.error⟩
  · obtain rfl := ho t ht
    rw [resume_goto]
    dsimp only
    rw [List.take_left, top_append _ _ hfits.length_eq.symm]
    exact hjoin hfits hst
  · cases depth with
    | zero =>
        cases hlab
        rw [jump_block]
        change le _ (κ (.ok (.next (mid ++ top results.length (below ++ carried))), st))
        rw [top_append _ _ hfits.length_eq.symm]
        exact hjoin hfits hst
    | succ depth =>
        rw [take_append_mid hwithin (List.mem_of_getElem? hlab)]
        exact h.branch depth lab hlab below carried st hfits hst

/-- Inside a loop that starts over in the block of its label. -/
theorem Accepts.round (hwithin : LabelsWithin labels outer) {midTypes : TypeStack}
    (hmid : FitsAll l midTypes mid) {sig : Signature} {header : Nat}
    (h : Accepts p l f oracle le (R i) labels outer (midTypes ++ sig.results) o κ)
    {again : List Datum × Store σ → Option (Ending (Store σ) (List Datum))}
    (hagain : ∀ args st, FitsAll l sig.params args → st.Fits p l f →
      le (R i header (outer ++ mid ++ args) st) (again (args, st))) :
    Accepts p l f oracle le (R i) (⟨.block header (outer ++ mid).length, sig.params⟩ :: labels)
      (outer ++ mid) sig.results o fun r =>
        Sum.elim again (fun r => κ (leaveEnding mid sig.results.length r))
          (roundEnd sig.params.length r) := by
  refine ⟨fun t ht stack st hfits hst => ?_, fun depth lab hlab below carried st hfits hst => ?_,
    h.ret, h.error⟩
  · rw [List.append_assoc]
    exact h.next t ht _ st (hmid.append hfits) hst
  · cases depth with
    | zero =>
        cases hlab
        rw [jump_block]
        change le _ (again (top sig.params.length (below ++ carried), st))
        rw [top_append _ _ hfits.length_eq.symm]
        exact hagain carried st hfits hst
    | succ depth =>
        rw [take_append_mid hwithin (List.mem_of_getElem? hlab)]
        exact h.branch depth lab hlab below carried st hfits hst

/-! ## Running through the pieces of a tree -/

/-- From the rest `t` on the blocks do what the evaluation does, above any operands of the outer
types and whatever comes behind. -/
def Runs (p : Program) (l : Layout) (f : Function) (oracle : Oracle σ)
    (le : Option (Ending (Store σ) (List Datum)) → Option (Ending (Store σ) (List Datum)) → Prop)
    (R : Nat → Going σ) (labels : List Label) (outerTypes : TypeStack)
    (eval : List Datum → Eval σ Flow) (types out : TypeStack) (t : BlockRest)
    (o : Option BlockRest) : Prop :=
  ∀ i outer vals st κ, FitsAll l outerTypes outer → LabelsWithin labels outer →
    FitsAll l types vals → st.Fits p l f →
    Accepts p l f oracle le (R i) labels outer out o κ →
    le (resume p l oracle (R i) t (outer ++ vals) st) ((eval vals st).bind κ)

variable {outerTypes rest : TypeStack} {t : BlockRest}

/-- A node that stays in its block. -/
theorem runs_stays (hp : p.Formed) (horacle : oracle.Sound p l)
    (hR : Compares p l oracle blocks le R) {n : Node}
    (hn : p.TypedNode f [] n types (some out)) (hret : ∀ i ∈ n.instrs, i.operation ≠ .ret)
    (code : List Node) (term : Terminator) :
    Runs p l f oracle le R labels outerTypes (evalNode p l oracle n) types out ⟨n :: code, term⟩
      (some ⟨code, term⟩) := by
  intro i outer vals st κ _ _ hvals hst hκ
  rw [resume_cons, evalNode_framed hn hvals hst, Option.bind_map]
  refine hR.bind fun left hr => ?_
  obtain ⟨r, st'⟩ := left
  have hflow := evalNode_fits hp horacle n hn hvals hst r st' hr
  have hstays := evalNode_stays n hret vals st r st' hr
  cases r with
  | error e => exact hκ.error e st'
  | ok flow =>
      cases flow with
      | next stack =>
          obtain ⟨⟨_, heq, hfits⟩, hst'⟩ := hflow
          cases heq
          exact hκ.next _ rfl stack st' hfits hst'
      | branch depth stack =>
          obtain ⟨⟨_, _, _, hlabel, -⟩, -⟩ := hflow
          cases hlabel
      | ret stack => exact absurd rfl (hstays stack)

/-- Taking the edge of a branch is a branch to its label. -/
theorem edge_jump (hR : Compares p l oracle blocks le R) {lab : Label} {e : Edge}
    (he : EdgeTo f blocks lab e) (hwithin : LabelsWithin labels outer) (hlab : lab ∈ labels)
    {carried : List Datum} (hfits : FitsAll l lab.types carried) (below : List Datum)
    (st : Store σ) :
    le (resume p l oracle (R i) ⟨[], .goto e⟩ (outer ++ (below ++ carried)) st)
      (jump (R i) lab outer carried st) := by
  rw [resume_goto]
  cases he with
  | @func k htarget htypes hk =>
      have hreturn := hR.enter hk i carried st
      rw [resume_ret, ← htypes, ← List.nil_append carried,
        top_append [] carried hfits.length_eq.symm] at hreturn
      rw [jump, htarget]
      dsimp only
      rw [List.take_zero, ← List.append_assoc, top_append _ _ hfits.length_eq.symm]
      exact hreturn
  | @block index height htarget =>
      rw [jump, htarget]
      dsimp only
      rw [List.take_append_of_le_length (hwithin lab hlab index height htarget),
        ← List.append_assoc, top_append _ _ hfits.length_eq.symm]
      exact hR.refl _

/-- The edges of a table branch and its depths are chosen alike. -/
theorem branchTo_getD {ltypes : List ValueType} {depths : List UInt32} {es : List Edge}
    {fallback : UInt32} {e : Edge}
    (hes : List.Forall₂ (BranchTo f blocks labels ltypes) depths es)
    (he : BranchTo f blocks labels ltypes fallback e) (k : Nat) :
    BranchTo f blocks labels ltypes (depths.getD k fallback) (es.getD k e) := by
  induction hes generalizing k with
  | nil => exact he
  | cons h _ ih =>
      cases k with
      | zero => exact h
      | succ k => exact ih k

/-- An instruction that asks for something, and the block behind. -/
theorem runs_request (horacle : oracle.Sound p l) (hp : p.Formed)
    (hR : Compares p l oracle blocks le R) {instr : Instr} {callee : Callee} {sig : Signature}
    (hi : instr.Requests p callee.request sig) {next : Nat} {behind : BlockRest}
    (hbehind : blocks next = some behind) :
    Runs p l f oracle le R labels outerTypes (evalInstr p l oracle instr) (rest ++ sig.params)
      (rest ++ sig.results) ⟨[], callee.yield sig next⟩ (some behind) := by
  intro i outer vals st κ _ _ hvals hst hκ
  obtain ⟨as, args, rfl, has, hargs⟩ := hvals.of_append
  have hsig : requestSignature? p callee.request = some sig ∧ evalInstr p l oracle instr
      = askTop oracle callee.request sig.params.length := by
    generalize callee.request = r at hi
    cases hi with
    | call hop himm hsig =>
        exact ⟨requestSignature_callRequest hp hsig, funext (evalCall hop himm hsig)⟩
    | callIndirect hop himm ht =>
        rw [requestSignature?, ht, List.length_append]
        exact ⟨rfl, funext (evalCallIndirect hop himm ht)⟩
    | memorySize hop => exact ⟨rfl, funext (evalMemorySize hop)⟩
    | memoryGrow hop => exact ⟨rfl, funext (evalMemoryGrow hop)⟩
  rw [hsig.2, askTop_append _ as args hargs.length_eq.symm, ← List.append_assoc,
    resume_yield _ _ _ _ _ hargs.length_eq.symm, Option.bind_map]
  refine hR.bind fun asked hanswer => ?_
  obtain ⟨answer, shared⟩ := asked
  have hfits := horacle _ sig args st.shared hsig.1 hargs hst.globals answer shared hanswer
  cases answer with
  | error e => exact hκ.error e _
  | ok results =>
      have hnext := hκ.next _ rfl (as ++ results) { st with shared } (has.append hfits.1)
        ⟨hst.locals, hfits.2⟩
      rw [← List.append_assoc] at hnext
      exact hR.trans (hR.enter hbehind ..) hnext

/-- An instruction. -/
theorem runs_instr (hp : p.Formed) (horacle : oracle.Sound p l)
    (hR : Compares p l oracle blocks le R) {instr : Instr}
    (h : NodeCode p f blocks labels outerTypes (.instr instr) types out t o) :
    Runs p l f oracle le R labels outerTypes (evalInstr p l oracle instr) types out t o := by
  cases h with
  | stays hn hret =>
      intro i outer vals st κ houter hwithin hvals hst hκ
      have hruns := runs_stays hp horacle hR hn hret _ _ i outer vals st κ houter hwithin hvals
        hst hκ
      rw [evalNode] at hruns
      exact hruns
  | request hi _ hbehind => exact runs_request horacle hp hR hi hbehind
  | unreachable hop =>
      intro i outer vals st κ _ _ _ _ hκ
      rw [evalUnreachable hop, resume_trap]
      exact hκ.error _ _
  | ret hop =>
      intro i outer vals st κ _ _ hvals hst hκ
      obtain ⟨below, results, rfl, -, hresults⟩ := hvals.of_append
      rw [evalRet hop, resume_ret, ← List.append_assoc,
        top_append _ _ hresults.length_eq.symm]
      exact hκ.ret below results st hresults hst
  | leave hop himm hlab htarget =>
      intro i outer vals st κ _ _ hvals hst hκ
      obtain ⟨below, carried, rfl, -, hcarried⟩ := hvals.of_append
      have hjump := hκ.branch _ _ hlab below carried st hcarried hst
      rw [jump, htarget] at hjump
      rw [evalBr hop himm, resume_ret, ← List.append_assoc,
        top_append _ _ hcarried.length_eq.symm]
      exact hjump
  | br hop himm hto =>
      intro i outer vals st κ _ hwithin hvals hst hκ
      obtain ⟨lab, hlab, rfl, he⟩ := hto
      obtain ⟨below, carried, rfl, -, hcarried⟩ := hvals.of_append
      rw [evalBr hop himm]
      exact hR.trans (edge_jump hR he hwithin (List.mem_of_getElem? hlab) hcarried below st)
        (hκ.branch _ _ hlab below carried st hcarried hst)
  | brTable hop himm hes hlast =>
      intro i outer vals st κ _ hwithin hvals hst hκ
      obtain ⟨stack, cs, rfl, hstack, hcs⟩ := hvals.of_append
      obtain ⟨c, rfl, -⟩ := hcs.of_single
      obtain ⟨below, carried, rfl, -, hcarried⟩ := hstack.of_append
      obtain ⟨lab, hlab, rfl, he⟩ := branchTo_getD hes hlast c.x.toNat
      rw [evalBrTable hop himm, ← List.append_assoc, resume_switch]
      exact hR.trans (edge_jump hR he hwithin (List.mem_of_getElem? hlab) hcarried below st)
        (hκ.branch _ _ hlab below carried st hcarried hst)
  | brIf hop himm hto hbehind =>
      intro i outer vals st κ houter hwithin hvals hst hκ
      obtain ⟨stack, cs, rfl, hstack, hcs⟩ := hvals.of_append
      obtain ⟨c, rfl, -⟩ := hcs.of_single
      obtain ⟨lab, hlab, rfl, he⟩ := hto
      rw [evalBrIf hop himm, ← List.append_assoc outer stack, resume_branch]
      by_cases hc : c.truth = true
      · rw [if_pos hc, if_pos hc]
        obtain ⟨below, carried, rfl, -, hcarried⟩ := hstack.of_append
        exact hR.trans (edge_jump hR he hwithin (List.mem_of_getElem? hlab) hcarried below st)
          (hκ.branch _ _ hlab below carried st hcarried hst)
      · rw [if_neg hc, if_neg hc, resume_full (houter.append hstack).length_eq]
        exact hR.trans (hR.enter hbehind ..) (hκ.next _ rfl stack st hstack hst)

/-! ## Constructs -/

section Constructs

variable {sig : Signature} {body alternative : List Node} {midTypes : TypeStack} {k join : Nat}
  {start behind : BlockRest}

theorem map_bind_leave (x : Option (Ending (Store σ) Flow)) (kept : List Datum) (n : Nat) :
    (x.map (leaveEnding kept n)).bind κ = x.bind fun r => κ (leaveEnding kept n r) :=
  Option.bind_map ..

/-- The code of a construct that is left for the block behind it, wherever it stands. -/
theorem Runs.leave (hR : Compares p l oracle blocks le R) (hbehind : blocks join = some behind)
    {ns : List Node}
    (hbody : Runs p l f oracle le R
      (⟨.block join (outerTypes ++ midTypes).length, sig.results⟩ :: labels)
      (outerTypes ++ midTypes) (evalSeq p l oracle ns) sig.params sig.results start o)
    (ho : ∀ t, o = some t →
      t = ⟨[], .goto ⟨join, (outerTypes ++ midTypes).length, sig.results.length⟩⟩)
    {args : List Datum} {st : Store σ} (houter : FitsAll l outerTypes outer)
    (hmid : FitsAll l midTypes mid) (hwithin : LabelsWithin labels outer)
    (hargs : FitsAll l sig.params args) (hst : st.Fits p l f)
    (hκ : Accepts p l f oracle le (R i) labels outer (midTypes ++ sig.results) (some behind) κ) :
    le (resume p l oracle (R i) start (outer ++ mid ++ args) st)
      (((evalSeq p l oracle ns args st).map (leaveEnding mid sig.results.length)).bind κ) := by
  have hbelow := houter.append hmid
  rw [hbelow.length_eq] at hbody ho
  rw [map_bind_leave]
  exact hbody i (outer ++ mid) args st _ hbelow (hwithin.cons join sig.results) hargs hst
    (hκ.leave hR hwithin hmid hbehind ho)

theorem runs_block (hR : Compares p l oracle blocks le R) (hbehind : blocks join = some behind)
    (hbody : Runs p l f oracle le R
      (⟨.block join (outerTypes ++ midTypes).length, sig.results⟩ :: labels)
      (outerTypes ++ midTypes) (evalSeq p l oracle body) sig.params sig.results start o)
    (ho : ∀ t, o = some t →
      t = ⟨[], .goto ⟨join, (outerTypes ++ midTypes).length, sig.results.length⟩⟩) :
    Runs p l f oracle le R labels outerTypes (evalNode p l oracle (.block false sig body))
      (midTypes ++ sig.params) (midTypes ++ sig.results) start (some behind) := by
  intro i outer vals st κ houter hwithin hvals hst hκ
  obtain ⟨mid, args, rfl, hmid, hargs⟩ := hvals.of_append
  rw [evalNode_block _ _ _ _ hargs.length_eq.symm, ← List.append_assoc]
  exact hbody.leave hR hbehind ho houter hmid hwithin hargs hst hκ

theorem runs_ifThen (hR : Compares p l oracle blocks le R) (heq : sig.params = sig.results)
    (hstart : blocks k = some start) (hbehind : blocks join = some behind)
    (hbody : Runs p l f oracle le R
      (⟨.block join (outerTypes ++ midTypes).length, sig.results⟩ :: labels)
      (outerTypes ++ midTypes) (evalSeq p l oracle body) sig.params sig.results start o)
    (ho : ∀ t, o = some t →
      t = ⟨[], .goto ⟨join, (outerTypes ++ midTypes).length, sig.results.length⟩⟩) :
    Runs p l f oracle le R labels outerTypes (evalNode p l oracle (.ifThen sig body))
      (midTypes ++ sig.params ++ [.i32]) (midTypes ++ sig.results)
      ⟨[], .branch ⟨k, (outerTypes ++ midTypes ++ sig.params).length, 0⟩
        ⟨join, (outerTypes ++ midTypes ++ sig.params).length, 0⟩⟩ (some behind) := by
  intro i outer vals st κ houter hwithin hvals hst hκ
  obtain ⟨rest, cs, rfl, hrest, hcs⟩ := hvals.of_append
  obtain ⟨mid, args, rfl, hmid, hargs⟩ := hrest.of_append
  obtain ⟨c, rfl, -⟩ := hcs.of_single
  have hlen := ((houter.append hmid).append hargs).length_eq
  rw [evalNode_ifThen _ _ _ hargs.length_eq.symm, ← List.append_assoc, ← List.append_assoc,
    resume_branch]
  by_cases hc : c.truth = true
  · rw [if_pos hc, if_pos hc, resume_full hlen]
    exact hR.trans (hR.enter hstart ..) (hbody.leave hR hbehind ho houter hmid hwithin hargs hst hκ)
  · rw [if_neg hc, if_neg hc, resume_full hlen]
    have hnext := hκ.next _ rfl (mid ++ args) st (hmid.append (heq ▸ hargs)) hst
    rw [← List.append_assoc] at hnext
    exact hR.trans (hR.enter hbehind ..) hnext

theorem runs_ifElse (hR : Compares p l oracle blocks le R) {second : Nat} {start' : BlockRest}
    {o' : Option BlockRest} (hstart : blocks k = some start) (hstart' : blocks second = some start')
    (hbehind : blocks join = some behind)
    (hbody : Runs p l f oracle le R
      (⟨.block join (outerTypes ++ midTypes).length, sig.results⟩ :: labels)
      (outerTypes ++ midTypes) (evalSeq p l oracle body) sig.params sig.results start o)
    (ho : ∀ t, o = some t →
      t = ⟨[], .goto ⟨join, (outerTypes ++ midTypes).length, sig.results.length⟩⟩)
    (halternative : Runs p l f oracle le R
      (⟨.block join (outerTypes ++ midTypes).length, sig.results⟩ :: labels)
      (outerTypes ++ midTypes) (evalSeq p l oracle alternative) sig.params sig.results start' o')
    (ho' : ∀ t, o' = some t →
      t = ⟨[], .goto ⟨join, (outerTypes ++ midTypes).length, sig.results.length⟩⟩) :
    Runs p l f oracle le R labels outerTypes (evalNode p l oracle (.ifElse sig body alternative))
      (midTypes ++ sig.params ++ [.i32]) (midTypes ++ sig.results)
      ⟨[], .branch ⟨k, (outerTypes ++ midTypes ++ sig.params).length, 0⟩
        ⟨second, (outerTypes ++ midTypes ++ sig.params).length, 0⟩⟩ (some behind) := by
  intro i outer vals st κ houter hwithin hvals hst hκ
  obtain ⟨rest, cs, rfl, hrest, hcs⟩ := hvals.of_append
  obtain ⟨mid, args, rfl, hmid, hargs⟩ := hrest.of_append
  obtain ⟨c, rfl, -⟩ := hcs.of_single
  have hlen := ((houter.append hmid).append hargs).length_eq
  rw [evalNode_ifElse _ _ _ _ hargs.length_eq.symm, ← List.append_assoc, ← List.append_assoc,
    resume_branch]
  by_cases hc : c.truth = true
  · rw [if_pos hc, if_pos hc, resume_full hlen]
    exact hR.trans (hR.enter hstart ..) (hbody.leave hR hbehind ho houter hmid hwithin hargs hst hκ)
  · rw [if_neg hc, if_neg hc, resume_full hlen]
    exact hR.trans (hR.enter hstart' ..)
      (halternative.leave hR hbehind ho' houter hmid hwithin hargs hst hκ)

theorem runs_loop (hR : Compares p l oracle blocks le R) (hstart : blocks k = some start)
    (hbody : Runs p l f oracle le R
      (⟨.block k (outerTypes ++ midTypes).length, sig.params⟩ :: labels)
      (outerTypes ++ midTypes) (evalSeq p l oracle body) sig.params sig.results start o) :
    Runs p l f oracle le R labels outerTypes (evalNode p l oracle (.block true sig body))
      (midTypes ++ sig.params) (midTypes ++ sig.results)
      ⟨[], .goto ⟨k, (outerTypes ++ midTypes ++ sig.params).length, 0⟩⟩ o := by
  intro i outer vals st κ houter hwithin hvals hst hκ
  obtain ⟨mid, args, rfl, hmid, hargs⟩ := hvals.of_append
  have hbelow := houter.append hmid
  rw [evalNode_block _ _ _ _ hargs.length_eq.symm, ← List.append_assoc,
    resume_full (hbelow.append hargs).length_eq, map_bind_leave]
  rw [hbelow.length_eq] at hbody
  -- A round starts with the operands that the label carries, above the same outer ones.
  let inv (a : List Datum × Store σ) : Prop := FitsAll l sig.params a.1 ∧ a.2.Fits p l f
  let place (a : List Datum × Store σ) : List Datum × Store σ := (outer ++ mid ++ a.1, a.2)
  have hrounds (a : List Datum × Store σ) (ha : inv a) :
      le (R i k (place a).1 (place a).2) ((evalLoop sig.params.length (evalSeq p l oracle body)
        a.1 a.2).bind fun r => κ (leaveEnding mid sig.results.length r)) := by
    refine hR.loop hstart ?_ a ha
    rintro j hj again hagain ⟨args, st⟩ ⟨hargs, hst⟩
    rw [Option.bind_map]
    exact hbody j (outer ++ mid) args st _ hbelow (hwithin.cons k sig.params) hargs hst
      ((hκ.of_le hR hj).round hwithin hmid
        fun args st hargs hst => hagain (args, st) ⟨hargs, hst⟩)
  exact hrounds (args, st) ⟨hargs, hst⟩

end Constructs

/-! ## Trees -/

mutual

/-- The blocks do what the node does. -/
theorem nodeCode_runs (hp : p.Formed) (horacle : oracle.Sound p l)
    (hR : Compares p l oracle blocks le R) : (n : Node) → {labels : List Label} →
    {outerTypes types out : TypeStack} → {t : BlockRest} → {o : Option BlockRest} →
    NodeCode p f blocks labels outerTypes n types out t o →
    Runs p l f oracle le R labels outerTypes (evalNode p l oracle n) types out t o
  | .instr instr, labels, outerTypes, types, out, t, o, h => by
      intro i outer vals st κ
      rw [evalNode]
      exact runs_instr hp horacle hR h i outer vals st κ
  | .block true sig body, labels, outerTypes, types, out, t, o, h => by
      cases h with
      | stays hn hret => exact runs_stays hp horacle hR hn hret _ _
      | loop hstart hbody => exact runs_loop hR hstart (seqCode_runs hp horacle hR body hbody)
  | .block false sig body, labels, outerTypes, types, out, t, o, h => by
      cases h with
      | stays hn hret => exact runs_stays hp horacle hR hn hret _ _
      | block hbehind hbody ho =>
          exact runs_block hR hbehind (seqCode_runs hp horacle hR body hbody) ho
  | .ifThen sig body, labels, outerTypes, types, out, t, o, h => by
      cases h with
      | stays hn hret => exact runs_stays hp horacle hR hn hret _ _
      | ifThen heq hstart hbehind hbody ho =>
          exact runs_ifThen hR heq hstart hbehind (seqCode_runs hp horacle hR body hbody) ho
  | .ifElse sig body alternative, labels, outerTypes, types, out, t, o, h => by
      cases h with
      | stays hn hret => exact runs_stays hp horacle hR hn hret _ _
      | ifElse hstart hstart' hbehind hbody ho halternative ho' =>
          exact runs_ifElse hR hstart hstart' hbehind (seqCode_runs hp horacle hR body hbody) ho
            (seqCode_runs hp horacle hR alternative halternative) ho'

/-- The blocks do what the sequence does. -/
theorem seqCode_runs (hp : p.Formed) (horacle : oracle.Sound p l)
    (hR : Compares p l oracle blocks le R) : (ns : List Node) → {labels : List Label} →
    {outerTypes types results : TypeStack} → {t : BlockRest} → {o : Option BlockRest} →
    SeqCode p f blocks labels outerTypes ns types results t o →
    Runs p l f oracle le R labels outerTypes (evalSeq p l oracle ns) types results t o
  | [], labels, outerTypes, types, results, t, o, h => by
      intro i outer vals st κ _ _ hvals hst hκ
      cases h with
      | nil =>
          rw [evalSeq]
          exact hκ.next t rfl vals st hvals hst
  | n :: ns, labels, outerTypes, types, results, t, o, h => by
      intro i outer vals st κ houter hwithin hvals hst hκ
      rw [evalSeq_cons, Option.bind_assoc]
      cases h with
      | cons hn hns =>
          refine nodeCode_runs hp horacle hR n hn i outer vals st _ houter hwithin hvals hst
            (hκ.goOn fun t ht stack st hstack hst => ?_)
          cases ht
          exact seqCode_runs hp horacle hR ns hns i outer stack st κ houter hwithin hstack hst hκ
      | dead hn =>
          exact nodeCode_runs hp horacle hR n hn i outer vals st _ houter hwithin hvals hst
            (hκ.goOn nofun)

end

end Accepts

end WasmShader.Structured
