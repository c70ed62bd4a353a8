import WasmShader.Proofs.InstrCode

/-!
# Code of structured bodies

Blocks, conditionals and loops, and sequences of them. A construct's statement has a label
of its own, which no statement around it has; leaving it is what a branch to the construct
does, and a branch further out passes it by. A loop goes round in the code exactly when it
does in the evaluation.
-/

namespace WasmShader

open Execution (Datum Env FitsAll meaning)
open Structured (Oracle Store Eval FlowFits)

namespace Emit

variable {σ : Type} {ctx : Context} {f : Function} {env : Env} {oracle : Oracle σ}
  {labels : List Label} {p : Program} {l : Layout} {s : Execution.State}

theorem Ends.of_beside {s₁ : Execution.State} {outer : TypeStack} {below : List Datum}
    {out : Option TypeStack} (hb : Beside s s₁) {a : Execution.Ending Execution.Flow}
    {b : Structured.Ending (Store σ) Structured.Flow}
    (h : Ends p l f labels outer below out s₁ a b) : Ends p l f labels outer below out s a b := by
  match a, b, h with
  | (.ok flow, s'), (.ok (.next stack), st), ⟨hflow, hb', h⟩ => exact ⟨hflow, hb.trans hb', h⟩
  | (.ok flow, s'), (.ok (.branch depth stack), st), ⟨hb', h⟩ => exact ⟨hb.trans hb', h⟩
  | (.ok flow, s'), (.ok (.ret stack), st), ⟨hflow, hb', h⟩ => exact ⟨hflow, hb.trans hb', h⟩
  | (.error (.trap c), s'), (.error (.trap c'), st), ⟨hc, h⟩ => exact ⟨hc, h.of_beside hb⟩

/-! ## Behind a construct -/

/-- The end of an evaluation, seen from behind the construct. -/
def leaveEnding (kept : List Datum) (n : Nat) :
    Structured.Ending (Store σ) Structured.Flow → Structured.Ending (Store σ) Structured.Flow
  | (r, st) => (r.map (·.leave kept n), st)

theorem bind_leave (x : Eval σ Structured.Flow) (kept : List Datum) (n : Nat) (st : Store σ) :
    (x >>= fun flow => (Pure.pure (flow.leave kept n) : Eval σ Structured.Flow)) st
      = (x st).map (leaveEnding kept n) := by
  rw [Structured.bind_apply]
  cases x st with
  | none => rfl
  | some r =>
      obtain ⟨r, st'⟩ := r
      cases r <;> rfl

section Constructs

variable (sig : Signature) (body : List Node) (kept : List Datum) {args : List Datum}

theorem evalNode_block (loop : Bool) (hargs : args.length = sig.params.length) (st : Store σ) :
    Structured.evalNode p l oracle (.block loop sig body) (kept ++ args) st
      = ((if loop then
            Structured.evalLoop sig.params.length (Structured.evalSeq p l oracle body) args
          else Structured.evalSeq p l oracle body args) st).map
        (leaveEnding kept sig.results.length) := by
  rw [Structured.evalNode, Structured.bind_of_ok (Structured.split_append kept args hargs st)]
  exact bind_leave _ kept _ st

theorem evalNode_ifThen (hargs : args.length = sig.params.length) (c : Datum) (st : Store σ) :
    Structured.evalNode p l oracle (.ifThen sig body) (kept ++ args ++ [c]) st
      = ((if c.truth then Structured.evalSeq p l oracle body args
          else Pure.pure (.next args)) st).map (leaveEnding kept sig.results.length) := by
  rw [Structured.evalNode, Structured.bind_of_ok (Structured.popOne_append _ c st)]
  dsimp only
  rw [Structured.bind_of_ok (Structured.split_append kept args hargs st)]
  exact bind_leave _ kept _ st

theorem evalNode_ifElse (alternative : List Node) (hargs : args.length = sig.params.length)
    (c : Datum) (st : Store σ) :
    Structured.evalNode p l oracle (.ifElse sig body alternative) (kept ++ args ++ [c]) st
      = ((if c.truth then Structured.evalSeq p l oracle body args
          else Structured.evalSeq p l oracle alternative args) st).map
        (leaveEnding kept sig.results.length) := by
  rw [Structured.evalNode, Structured.bind_of_ok (Structured.popOne_append _ c st)]
  dsimp only
  rw [Structured.bind_of_ok (Structured.split_append kept args hargs st)]
  exact bind_leave _ kept _ st

end Constructs

/-- The surroundings of a construct: operands below those it takes, and a label name that
is not in use. -/
structure Around (labels : List Label) (outer mid : TypeStack) (below kept : List Datum)
    (name : String) : Prop where
  height : ∀ lab ∈ labels, lab.height ≤ outer.length
  fresh : ∀ lab ∈ labels, lab.kind ≠ .func → lab.name ≠ name
  outer : outer.length = below.length
  mid : mid.length = kept.length

theorem Label.Reached.ne_next {lab : Label} {outer : TypeStack} {below carried : List Datum}
    {flow : Execution.Flow} {st : Store σ}
    (h : lab.Reached p l outer below carried flow st s) : flow ≠ .next := by
  unfold Label.Reached at h
  cases hkind : lab.kind with
  | func => rw [hkind] at h; rw [h.1]; nofun
  | block => rw [hkind] at h; rw [h.1]; nofun
  | loop => rw [hkind] at h; rw [h.1]; nofun

/-- A label further out is reached past the construct. -/
theorem Label.Reached.pass {outer mid : TypeStack} {below kept carried : List Datum}
    {name : String} (haround : Around labels outer mid below kept name) {lab : Label}
    (hlab : lab ∈ labels) {flow : Execution.Flow} {st : Store σ}
    (h : lab.Reached p l (outer ++ mid) (below ++ kept) carried flow st s) :
    lab.Reached p l outer below carried flow st s ∧ flow ≠ .leave name ∧ flow ≠ .again name := by
  have hheight := haround.height lab hlab
  have houter : (outer ++ mid).take lab.height = outer.take lab.height :=
    List.take_append_of_le_length hheight
  have hbelow : (below ++ kept).take lab.height = below.take lab.height :=
    List.take_append_of_le_length (by rw [← haround.outer]; exact hheight)
  have hfresh := haround.fresh lab hlab
  unfold Label.Reached at h ⊢
  rw [houter, hbelow] at h
  cases hkind : lab.kind with
  | func =>
      rw [hkind] at h
      obtain ⟨rfl, hholds⟩ := h
      exact ⟨⟨rfl, hholds⟩, nofun, nofun⟩
  | block =>
      rw [hkind] at h hfresh
      obtain ⟨rfl, hholds⟩ := h
      exact ⟨⟨rfl, hholds⟩, fun heq => hfresh nofun (Execution.Flow.leave.inj heq), nofun⟩
  | loop =>
      rw [hkind] at h hfresh
      obtain ⟨rfl, hholds⟩ := h
      exact ⟨⟨rfl, hholds⟩, nofun, fun heq => hfresh nofun (Execution.Flow.again.inj heq)⟩

theorem catchLeave_of_ne {name : String} {flow : Execution.Flow} (h : flow ≠ .leave name) :
    Execution.catchLeave name flow = flow := by
  cases flow with
  | leave other => exact if_neg fun heq => h (by rw [heq])
  | _ => rfl

/-- The values that a construct's own label carries are where the construct leaves them. -/
theorem Holds.of_take {outer mid results : TypeStack} {below kept carried : List Datum}
    {st : Store σ} (hlen : (outer ++ mid).length = (below ++ kept).length)
    (h : Holds p l ((outer ++ mid).take (outer ++ mid).length ++ results)
      ((below ++ kept).take (outer ++ mid).length ++ carried) st s) :
    Holds p l (outer ++ mid ++ results) (below ++ kept ++ carried) st s := by
  rw [List.take_length, hlen, List.take_length] at h
  exact h

/-- Behind the statement of a block. -/
theorem Ends.leave_block {outer mid : TypeStack} {below kept : List Datum} {name : String}
    {results : List ValueType} (haround : Around labels outer mid below kept name)
    {a : Execution.Ending Execution.Flow} {b : Structured.Ending (Store σ) Structured.Flow}
    (h : Ends p l f (⟨.block, name, results, (outer ++ mid).length⟩ :: labels) (outer ++ mid)
      (below ++ kept) (some results) s a b) :
    Ends p l f labels outer below (some (mid ++ results)) s
      (a.1.map (Execution.catchLeave name), a.2) (leaveEnding kept results.length b) := by
  have hlen : (outer ++ mid).length = (below ++ kept).length := by
    rw [List.length_append, List.length_append, haround.outer, haround.mid]
  match a, b, h with
  | (.ok flow, s'), (.ok (.next stack), st), ⟨hflow, hb, types, htypes, hholds⟩ =>
      cases htypes
      subst hflow
      rw [List.append_assoc, List.append_assoc] at hholds
      exact ⟨rfl, hb, _, rfl, hholds⟩
  | (.ok flow, s'), (.ok (.branch 0 stack), st), ⟨hb, lab, hlab, hreached⟩ =>
      cases hlab
      obtain ⟨rfl, hholds⟩ := hreached
      have hholds := hholds.of_take hlen
      rw [List.append_assoc, List.append_assoc] at hholds
      exact ⟨if_pos rfl, hb, _, rfl, hholds⟩
  | (.ok flow, s'), (.ok (.branch (depth + 1) stack), st), ⟨hb, lab, hlab, hreached⟩ =>
      rw [List.getElem?_cons_succ] at hlab
      obtain ⟨hreached, hne, -⟩ := hreached.pass haround (List.mem_of_getElem? hlab)
      refine ⟨hb, lab, hlab, ?_⟩
      rw [catchLeave_of_ne hne]
      exact hreached
  | (.ok flow, s'), (.ok (.ret stack), st), ⟨hflow, hb, hholds⟩ =>
      subst hflow
      exact ⟨rfl, hb, hholds⟩
  | (.error (.trap c), s'), (.error (.trap c'), st), h => exact h

/-- The statement of a block does what leaving the construct does. -/
theorem block_rel {outer mid : TypeStack} {below kept : List Datum} {name : String}
    {results : List ValueType} (haround : Around labels outer mid below kept name)
    {code : List Shader.Stmt} {x : Option (Structured.Ending (Store σ) Structured.Flow)}
    (h : Option.Rel (Ends p l f (⟨.block, name, results, (outer ++ mid).length⟩ :: labels)
      (outer ++ mid) (below ++ kept) (some results) s) (meaning env code s) x) :
    Option.Rel (Ends p l f labels outer below (some (mid ++ results)) s)
      (meaning env [.block name code] s) (x.map (leaveEnding kept results.length)) := by
  have hmap : meaning env [.block name code] s = (meaning env code s).map fun r =>
      (r.1.map (Execution.catchLeave name), r.2) := by
    rw [Execution.meaning_singleton, Execution.stmtMeaning_block]
    cases meaning env code s with
    | none => rfl
    | some r =>
        obtain ⟨r, s'⟩ := r
        cases r <;> rfl
  rw [hmap]
  exact h.map fun a b hab => hab.leave_block haround

/-! ## Loops -/

theorem roundEnd_again (name : String) (s : Execution.State) :
    Execution.roundEnd name (.ok (.again name), s) = .inl s := if_pos rfl

/-- A flow that is not about the loop ends it. -/
theorem roundEnd_of_ne {name : String} {flow : Execution.Flow} (hnext : flow ≠ .next)
    (hleave : flow ≠ .leave name) (hagain : flow ≠ .again name) :
    Execution.roundEnd name (.ok flow, s) = .inr (.ok flow, s) := by
  cases flow with
  | next => exact absurd rfl hnext
  | again other => exact if_neg fun heq => hagain (by rw [heq])
  | leave other =>
      change Sum.inr (Except.ok (Execution.catchLeave name (.leave other)), s) = _
      rw [catchLeave_of_ne hleave]
  | ret values => rfl

theorem onNext_of_ne {k : Execution.State → Option (Execution.Ending Execution.Flow)}
    {flow : Execution.Flow} (h : flow ≠ .next) :
    Execution.onNext k flow s = some (.ok flow, s) := by
  cases flow with
  | next => exact absurd rfl h
  | _ => rfl

/-- The state at the start of a round of a loop. -/
structure AtRound (p : Program) (f : Function) (env : Env) (es : State) (start : Execution.State)
    (outer : TypeStack) (below : List Datum) (params : List ValueType) (s : Execution.State)
    (round : List Datum × Store σ) : Prop where
  beside : Beside start s
  ready : Ready es s
  holds : Holds p env.exe.layout (outer ++ params) (below ++ round.1) round.2 s
  fits : FitsAll env.exe.layout params round.1
  store : round.2.Fits p env.exe.layout f

/-- One round of a loop: both sides start over, or both are behind the loop. -/
theorem round_rel {outer mid : TypeStack} {below kept : List Datum} {name : String}
    {sig : Signature} {es : State} {start : Execution.State} {ltypes : Program.Labels}
    {code : List Shader.Stmt} {run : List Datum → Eval σ Structured.Flow}
    (haround : Around labels outer mid below kept name)
    (hcode : Simulates p f env (⟨.loop, name, sig.params, (outer ++ mid).length⟩ :: labels)
      (outer ++ mid) sig.params (some sig.results) es code run)
    (hrun : ∀ args st, FitsAll env.exe.layout sig.params args → st.Fits p env.exe.layout f →
      Structured.Sat (run args) st
        (FlowFits p env.exe.layout f (sig.params :: ltypes) (some sig.results)))
    {s : Execution.State} {round : List Datum × Store σ}
    (h : AtRound p f env es start (outer ++ mid) (below ++ kept) sig.params s round) :
    Option.Rel (Sum.LiftRel
        (AtRound p f env es start (outer ++ mid) (below ++ kept) sig.params)
        (fun a b => Ends p env.exe.layout f labels outer below (some (mid ++ sig.results)) start a
          (leaveEnding kept sig.results.length b)))
      (Execution.loopRound env name (code ++ [.leave name]) s)
      ((run round.1 round.2).map (Structured.roundEnd sig.params.length)) := by
  have hlen : (outer ++ mid).length = (below ++ kept).length := by
    rw [List.length_append, List.length_append, haround.outer, haround.mid]
  have hrel := (hcode _ _ _ _ h.ready h.holds h.fits h.store).and_right
    (fun b hb => hrun _ _ h.fits h.store b.1 b.2 hb)
  rw [Execution.loopRound, Execution.meaning_append, Option.map_eq_bind, Option.map_eq_bind,
    Option.bind_assoc]
  refine hrel.bind fun a b hab => ?_
  obtain ⟨hends, hfits⟩ := hab
  unfold Ends at hends
  split at hends
  · next flow s' stack st =>
    obtain ⟨hflow, hb, types, htypes, hholds⟩ := hends
    cases htypes
    subst hflow
    rw [List.append_assoc, List.append_assoc] at hholds
    change Option.Rel _ ((meaning env [.leave name] s').bind _) _
    rw [Execution.meaning_singleton, Execution.stmtMeaning_leave]
    exact .some (.inr ⟨if_pos rfl, h.beside.trans hb, _, rfl, hholds⟩)
  · next flow s' depth stack st =>
    obtain ⟨hb, lab, hlab, hreached⟩ := hends
    cases depth with
    | zero =>
      cases hlab
      obtain ⟨rfl, hholds⟩ := hreached
      obtain ⟨⟨types, rest, carried, htypes, rfl, hcarried⟩, hst⟩ := hfits
      cases htypes
      change Option.Rel _ (some (Execution.roundEnd name (.ok (.again name), s'))) _
      rw [roundEnd_again]
      refine .some (.inl ⟨h.beside.trans hb, h.ready.beside hb, hholds.of_take hlen, ?_, hst⟩)
      change FitsAll _ _ (Structured.top sig.params.length (rest ++ carried))
      rw [Structured.top_append rest carried hcarried.length_eq.symm]
      exact hcarried
    | succ depth =>
      rw [List.getElem?_cons_succ] at hlab
      have hneNext := hreached.ne_next
      obtain ⟨hreached, hneLeave, hneAgain⟩ := hreached.pass haround (List.mem_of_getElem? hlab)
      have hround : (Execution.andThen (Execution.onNext (meaning env [.leave name]))
          (.ok flow, s')).bind (some ∘ Execution.roundEnd name) = some (.inr (.ok flow, s')) := by
        rw [Execution.andThen, onNext_of_ne hneNext]
        exact congrArg some (roundEnd_of_ne hneNext hneLeave hneAgain)
      rw [hround]
      exact .some (.inr ⟨h.beside.trans hb, lab, hlab, hreached⟩)
  · obtain ⟨hflow, hb, hholds⟩ := hends
    subst hflow
    exact .some (.inr ⟨rfl, h.beside.trans hb, hholds⟩)
  · exact .some (.inr ⟨hends.1, hends.2.of_beside h.beside⟩)
  · exact hends.elim

/-- The statement of a loop does what the loop does. -/
theorem loop_rel {outer mid : TypeStack} {below kept : List Datum} {name : String}
    {sig : Signature} {es : State} {ltypes : Program.Labels} {code : List Shader.Stmt}
    {run : List Datum → Eval σ Structured.Flow} (hcancelled : env.cancelled = false)
    (haround : Around labels outer mid below kept name)
    (hcode : Simulates p f env (⟨.loop, name, sig.params, (outer ++ mid).length⟩ :: labels)
      (outer ++ mid) sig.params (some sig.results) es code run)
    (hrun : ∀ args st, FitsAll env.exe.layout sig.params args → st.Fits p env.exe.layout f →
      Structured.Sat (run args) st
        (FlowFits p env.exe.layout f (sig.params :: ltypes) (some sig.results)))
    {args : List Datum} {st : Store σ}
    (h : AtRound p f env es s (outer ++ mid) (below ++ kept) sig.params s (args, st)) :
    Option.Rel (Ends p env.exe.layout f labels outer below (some (mid ++ sig.results)) s)
      (meaning env [.loop name (code ++ [.leave name])] s)
      ((Structured.evalLoop sig.params.length run args st).map
        (leaveEnding kept sig.results.length)) := by
  rw [Execution.meaning_singleton, Execution.stmtMeaning_loop hcancelled, Structured.evalLoop]
  exact (untilDone_rel (fun s' round hround => round_rel haround hcode hrun hround) h).map_right
    fun a b hab => hab

/-! ## Nodes and sequences -/

theorem LabelsFit.cons {ltypes : Program.Labels} {height count height' count' : Nat}
    (h : LabelsFit labels ltypes height count) (hheight : height ≤ height')
    (hcount : count' = count + 1) (kind : LabelKind) (types : List ValueType) :
    LabelsFit (⟨kind, labelName (count + 1), types, height'⟩ :: labels) (types :: ltypes) height'
      count' := by
  subst hcount
  have hmono := h.mono hheight (Nat.le_succ count)
  refine ⟨by rw [List.map_cons, h.types], fun lab hlab => ?_, fun lab hlab hkind => ?_⟩
  · rcases List.mem_cons.mp hlab with rfl | hlab
    · exact Nat.le_refl _
    · exact hmono.height lab hlab
  · rcases List.mem_cons.mp hlab with rfl | hlab
    · exact ⟨count + 1, Nat.le_refl _, rfl⟩
    · exact hmono.name lab hlab hkind

theorem LabelsFit.around {ltypes : Program.Labels} {count : Nat} {outer mid : TypeStack}
    {below kept : List Datum} (h : LabelsFit labels ltypes outer.length count)
    (houter : outer.length = below.length) (hmid : mid.length = kept.length) :
    Around labels outer mid below kept (labelName (count + 1)) := by
  refine ⟨h.height, fun lab hlab hkind heq => ?_, houter, hmid⟩
  obtain ⟨m, hm, hname⟩ := h.name lab hlab hkind
  have := labelName_inj (hname.symm.trans heq)
  omega

theorem Holds.length_below {types : TypeStack} {outer : TypeStack} {below data : List Datum}
    {st : Store σ} (h : Holds p l (outer ++ types) (below ++ data) st s)
    (hdata : types.length = data.length) : outer.length = below.length := by
  have := h.length_eq
  rw [List.length_append, List.length_append] at this
  omega

/-- The statement of a conditional, once the condition is known. -/
theorem meaning_ifElse {c v : Datum} {cond : Shader.Expr}
    {code other : List Shader.Stmt} (hcond : Execution.eval env.exe.layout s cond = .ok v)
    (htruth : v.truth = c.truth) :
    meaning env [.ifElse cond code other] s
      = if c.truth then meaning env code s else meaning env other s := by
  rw [Execution.meaning_singleton, Execution.stmtMeaning_ifElse hcond, htruth]

/-- Behind the first node of a sequence, the rest follows if control gets there. -/
theorem seq_rel {ns : List Node} {ltypes : Program.Labels} {outer mid : TypeStack}
    {below : List Datum} {results : List ValueType} {es : State} {rest : List Shader.Stmt}
    (hready : Ready es s)
    (hrest : Simulates p f env labels outer mid (some results) es rest
      (Structured.evalSeq p env.exe.layout oracle ns))
    {a : Execution.Ending Execution.Flow} {b : Structured.Ending (Store σ) Structured.Flow}
    (h : Ends p env.exe.layout f labels outer below (some mid) s a b)
    (hfits : FlowFits p env.exe.layout f ltypes (some mid) b.1 b.2) :
    Option.Rel (Ends p env.exe.layout f labels outer below (some results) s)
      (Execution.andThen (Execution.onNext (meaning env rest)) a)
      (Structured.goOn (Structured.evalSeq p env.exe.layout oracle ns) b) := by
  match a, b, h with
  | (.ok flow, s'), (.ok (.next stack), st), ⟨hflow, hb, types, htypes, hholds⟩ =>
      cases htypes
      subst hflow
      obtain ⟨⟨types, htypes, hstack⟩, hst⟩ := hfits
      cases htypes
      exact (hrest below stack st s' (hready.beside hb) hholds hstack hst).mono
        fun a b hab => hab.of_beside hb
  | (.ok flow, s'), (.ok (.branch depth stack), st), ⟨hb, lab, hlab, hreached⟩ =>
      have hne := hreached.ne_next
      rw [Execution.andThen, onNext_of_ne hne]
      exact .some ⟨hb, lab, hlab, hreached⟩
  | (.ok flow, s'), (.ok (.ret stack), st), ⟨hflow, hb, hholds⟩ =>
      subst hflow
      exact .some ⟨rfl, hb, hholds⟩
  | (.error (.trap c), s'), (.error (.trap c'), st), h => exact .some h

/-- Behind the last node of a sequence that control does not pass. -/
theorem last_rel {outer : TypeStack} {below : List Datum} {results : List ValueType}
    {a : Execution.Ending Execution.Flow} {b : Structured.Ending (Store σ) Structured.Flow}
    (h : Ends p l f labels outer below none s a b) :
    Option.Rel (Ends p l f labels outer below (some results) s) (some a)
      (Structured.goOn (Structured.evalSeq p l oracle []) b) := by
  match a, b, h with
  | (.ok flow, s'), (.ok (.next stack), st), ⟨_, _, _, htypes, _⟩ => cases htypes
  | (.ok flow, s'), (.ok (.branch depth stack), st), h => exact .some h
  | (.ok flow, s'), (.ok (.ret stack), st), h => exact .some h
  | (.error (.trap c), s'), (.error (.trap c'), st), h => exact .some h

/-- The code of a sequence does what the sequence does, wherever it is typed. -/
def SeqCode (ctx : Context) (f : Function) (env : Env) (oracle : Oracle σ) (ns : List Node) :
    Prop :=
  ∀ {labels : List Label} {ltypes : Program.Labels} {outer types : TypeStack}
    {results : List ValueType} {es : State}, LabelsFit labels ltypes outer.length es.labels →
    Program.TypedSeq ctx.program f ltypes ns types results → es.stack = outer ++ types →
    Emits ctx f (emitSeq ctx f labels ns) es fun code es' =>
      Simulates ctx.program f env labels outer types (some results) es' code
        (Structured.evalSeq ctx.program env.exe.layout oracle ns)

section Nodes

variable {kept : Nat → Prop} {ltypes : Program.Labels} {outer types : TypeStack}
  {out : Option TypeStack} {es : State} {sig : Signature} {body : List Node}

/-- Behind a construct are the operands below those that it takes, and its results. -/
theorem known_behind {mid : TypeStack} (hsig : sig.Known)
    (h : AllKnown (outer ++ mid ++ sig.params)) : AllKnown (outer ++ mid ++ sig.results) :=
  h.of_append.1.append hsig.results

/-- The labels inside a construct. -/
theorem LabelsFit.inside {count : Nat} (h : LabelsFit labels ltypes outer.length count)
    (mid : TypeStack) (kind : LabelKind) (ts : List ValueType) :
    LabelsFit (⟨kind, labelName (count + 1), ts, (outer ++ mid).length⟩ :: labels) (ts :: ltypes)
      (outer ++ mid).length (count + 1) :=
  h.cons (by rw [List.length_append]; omega) rfl kind ts

theorem emitBlock_emits (hset : Setting ctx kept f env oracle)
    (hcode : SeqCode ctx f env oracle body) {loop : Bool}
    (hlabels : LabelsFit labels ltypes outer.length es.labels)
    (h : Program.TypedNode ctx.program f ltypes (.block loop sig body) types out)
    (hstack : es.stack = outer ++ types) :
    Emits ctx f (emitNode ctx f labels (.block loop sig body)) es
      (CodeFor ctx.program f env labels outer types out
        (Structured.evalNode ctx.program env.exe.layout oracle (.block loop sig body))) := by
  cases h with
  | @block _ _ _ _ mid hsig hbody =>
      rw [← List.append_assoc] at hstack
      refine .of_known fun _ hknown => ?_
      have hbehind := known_behind hsig (hstack ▸ hknown)
      rw [emitNode]
      refine .bind (outerStack_emits rfl hstack) ?_
      rintro _ _ - ⟨rfl, rfl⟩
      refine .bind (newLabel_emits es) ?_
      rintro _ es₁ - ⟨rfl, hcount, hstack₁⟩
      have hinner := hlabels.inside mid (if loop then .loop else .block)
        (labelTypes loop sig)
      refine .bind (hcode (hcount ▸ hinner) hbody (hstack₁.trans hstack)) ?_
      intro code es₂ _ hcode
      refine .bind (setStack_emits hbehind es₂) ?_
      rintro _ _ hgrows rfl
      refine .pure (.of_stack (List.append_assoc ..) fun below data st s hready hholds hfits
        hst => ?_)
      obtain ⟨kept, args, rfl, hkept, hargs⟩ := hfits.of_append
      have houter := hholds.length_below hfits.length_eq
      rw [← List.append_assoc, ← List.append_assoc] at hholds
      have haround := hlabels.around houter hkept.length_eq
      rw [evalNode_block sig body kept loop hargs.length_eq.symm st]
      have hready₂ := hready.of_grows hgrows
      cases loop with
      | false => exact block_rel haround (hcode _ _ _ _ hready₂ hholds hargs hst)
      | true =>
          exact loop_rel hset.notCancelled haround hcode
            (fun args st hargs hst =>
              Structured.evalSeq_fits hset.formed hset.sound body hbody hargs hst)
            ⟨.refl s, hready₂, hholds, hargs, hst⟩

/-- The code of a conditional, when the code on either side of it does what the evaluation does. -/
theorem conditional_rel {mid : TypeStack} {count : Nat} {code other : List Shader.Stmt}
    {run : Datum → List Datum → Structured.Eval σ Structured.Flow}
    (hlabels : LabelsFit labels ltypes outer.length count)
    (hsides : ∀ (c : Datum) below kept args (st : Store σ) s, Ready es s →
      Holds p env.exe.layout (outer ++ mid ++ sig.params) (below ++ kept ++ args) st s →
      FitsAll env.exe.layout sig.params args → st.Fits p env.exe.layout f →
      Option.Rel (Ends p env.exe.layout f
          (⟨.block, labelName (count + 1), sig.results, (outer ++ mid).length⟩ :: labels)
          (outer ++ mid) (below ++ kept) (some sig.results) s)
        (if c.truth then meaning env code s else meaning env other s) (run c args st))
    {node : List Datum → Structured.Eval σ Structured.Flow}
    (hnode : ∀ kept args c (st : Store σ), args.length = sig.params.length →
      node (kept ++ args ++ [c]) st = (run c args st).map (leaveEnding kept sig.results.length)) :
    Simulates p f env labels outer (mid ++ sig.params ++ [.i32]) (some (mid ++ sig.results)) es
      [.block (labelName (count + 1)) [.ifElse
        (Shader.Expr.isNonzero (.var (slotName (outer ++ mid ++ sig.params).length .i32)))
        code other]] node := by
  intro below data st s hready hholds hfits hst
  obtain ⟨rest, cs, rfl, hrest, hcs⟩ := hfits.of_append
  obtain ⟨c, rfl, hc⟩ := hcs.of_single
  obtain ⟨kept, args, rfl, hkept, hargs⟩ := hrest.of_append
  have haround := hlabels.around (hholds.length_below hfits.length_eq) hkept.length_eq
  rw [← List.append_assoc, ← List.append_assoc, ← List.append_assoc, ← List.append_assoc] at hholds
  obtain ⟨hinside, habove⟩ := hholds.below rfl
  cases habove with
  | cons hcond _ =>
      obtain ⟨v, hv, htruth⟩ := eval_isNonzero hcond hc
      rw [hnode kept args c st hargs.length_eq.symm]
      refine block_rel haround ?_
      rw [meaning_ifElse hv htruth]
      exact hsides c below kept args st s hready hinside hargs hst

theorem emitIfThen_emits (hcode : SeqCode ctx f env oracle body)
    (hlabels : LabelsFit labels ltypes outer.length es.labels)
    (h : Program.TypedNode ctx.program f ltypes (.ifThen sig body) types out)
    (hstack : es.stack = outer ++ types) :
    Emits ctx f (emitNode ctx f labels (.ifThen sig body)) es
      (CodeFor ctx.program f env labels outer types out
        (Structured.evalNode ctx.program env.exe.layout oracle (.ifThen sig body))) := by
  cases h with
  | @ifThen _ _ _ mid hsig heq hbody =>
      rw [← List.append_assoc, ← List.append_assoc] at hstack
      refine .of_known fun _ hknown => ?_
      have hbehind := known_behind hsig (hstack ▸ hknown).of_append.1
      rw [emitNode]
      refine .bind (pop1_emits hstack) ?_
      rintro _ es₀ hgrows₀ ⟨rfl, hstack₀⟩
      refine .bind (outerStack_emits rfl hstack₀) ?_
      rintro _ _ - ⟨rfl, rfl⟩
      refine .bind (newLabel_emits es₀) ?_
      rintro _ es₁ - ⟨rfl, hcount, hstack₁⟩
      have hlabels₀ := hlabels.mono (Nat.le_refl _) hgrows₀.labels
      have hinner := hlabels₀.inside mid .block sig.results
      refine .bind (hcode (hcount ▸ hinner) hbody (hstack₁.trans hstack₀)) ?_
      intro code es₂ _ hcode
      refine .bind (setStack_emits hbehind es₂) ?_
      rintro _ _ hgrows rfl
      refine .pure (.of_stack (List.append_assoc ..) (conditional_rel hlabels₀ ?_
        fun kept args c st hargs => evalNode_ifThen sig body kept hargs c st))
      intro c below kept args st s hready hinside hargs hst
      cases c.truth with
      | true => exact hcode _ _ _ _ (hready.of_grows hgrows) hinside hargs hst
      | false =>
          rw [if_neg Bool.false_ne_true, if_neg Bool.false_ne_true, Execution.meaning_nil]
          exact .some ⟨rfl, .refl s, _, rfl, heq ▸ hinside⟩

theorem emitIfElse_emits {alternative : List Node} (hcode : SeqCode ctx f env oracle body)
    (hother : SeqCode ctx f env oracle alternative)
    (hlabels : LabelsFit labels ltypes outer.length es.labels)
    (h : Program.TypedNode ctx.program f ltypes (.ifElse sig body alternative) types out)
    (hstack : es.stack = outer ++ types) :
    Emits ctx f (emitNode ctx f labels (.ifElse sig body alternative)) es
      (CodeFor ctx.program f env labels outer types out
        (Structured.evalNode ctx.program env.exe.layout oracle (.ifElse sig body alternative))) := by
  cases h with
  | @ifElse _ _ _ _ mid hsig hbody halternative =>
      rw [← List.append_assoc, ← List.append_assoc] at hstack
      refine .of_known fun _ hknown => ?_
      have hfront := (hstack ▸ hknown : AllKnown (outer ++ mid ++ sig.params ++ _)).of_append.1
      rw [emitNode]
      refine .bind (pop1_emits hstack) ?_
      rintro _ es₀ hgrows₀ ⟨rfl, hstack₀⟩
      refine .bind_get ?_
      refine .bind (outerStack_emits rfl hstack₀) ?_
      rintro _ _ - ⟨rfl, rfl⟩
      refine .bind (newLabel_emits es₀) ?_
      rintro _ es₁ - ⟨rfl, hcount, hstack₁⟩
      have hlabels₀ := hlabels.mono (Nat.le_refl _) hgrows₀.labels
      have hinner := hlabels₀.inside mid .block sig.results
      refine .bind (hcode (hcount ▸ hinner) hbody (hstack₁.trans hstack₀)) ?_
      intro code es₂ hgrows₂ hcode
      refine .bind (setStack_emits (hstack₀ ▸ hfront) es₂) ?_
      rintro _ es₃ hgrows₃ heq₃
      have hlater : es₀.labels + 1 ≤ es₃.labels := hcount ▸ (hgrows₂.trans hgrows₃).labels
      refine .bind (hother (hinner.mono (Nat.le_refl _) hlater) halternative
        (by rw [heq₃]; exact hstack₀)) ?_
      intro other es₄ hgrows₄ hother
      refine .bind (setStack_emits (known_behind hsig hfront) es₄) ?_
      rintro _ _ hgrows rfl
      refine .pure (.of_stack (List.append_assoc ..) (conditional_rel hlabels₀ ?_
        fun kept args c st hargs => evalNode_ifElse sig body kept alternative hargs c st))
      intro c below kept args st s hready hinside hargs hst
      have hready₄ := hready.of_grows hgrows
      cases c.truth with
      | true => exact hcode _ _ _ _ (hready₄.of_grows (hgrows₃.trans hgrows₄)) hinside hargs hst
      | false => exact hother _ _ _ _ hready₄ hinside hargs hst

end Nodes

mutual

/-- The code of a typed node. -/
theorem emitNode_emits {kept : Nat → Prop} (hset : Setting ctx kept f env oracle) : (n : Node) →
    (∀ i ∈ n.instrs, i.IsDirect ctx.program ctx.analysis kept f.index) →
    {labels : List Label} → {ltypes : Program.Labels} → {outer types : TypeStack} →
    {out : Option TypeStack} → {es : State} → LabelsFit labels ltypes outer.length es.labels →
    Program.TypedNode ctx.program f ltypes n types out → es.stack = outer ++ types →
    Emits ctx f (emitNode ctx f labels n) es
      (CodeFor ctx.program f env labels outer types out
        (Structured.evalNode ctx.program env.exe.layout oracle n))
  | .instr i, hdirect, labels, ltypes, outer, types, out, es, hlabels, h, hstack => by
      cases h with
      | instr hi =>
          rw [emitNode]
          have hcode := emitInstr_emits hset (hdirect i (List.mem_singleton.mpr rfl)) hlabels hi
            hstack
          refine hcode.mono fun code es' _ hc => ⟨hc.1, fun below data st s hr hh hf hs => ?_⟩
          rw [Structured.evalNode]
          exact hc.2 below data st s hr hh hf hs
  | .block loop sig body, hdirect, labels, ltypes, outer, types, out, es, hlabels, h, hstack =>
      emitBlock_emits hset (emitSeq_emits hset body hdirect) hlabels h hstack
  | .ifThen sig body, hdirect, labels, ltypes, outer, types, out, es, hlabels, h, hstack =>
      emitIfThen_emits (emitSeq_emits hset body hdirect) hlabels h hstack
  | .ifElse sig body alternative, hdirect, labels, ltypes, outer, types, out, es, hlabels, h,
      hstack =>
      emitIfElse_emits
        (emitSeq_emits hset body fun i hi => hdirect i (List.mem_append_left _ hi))
        (emitSeq_emits hset alternative fun i hi => hdirect i (List.mem_append_right _ hi))
        hlabels h hstack

/-- The code of a typed sequence. -/
theorem emitSeq_emits {kept : Nat → Prop} (hset : Setting ctx kept f env oracle) : (ns : List Node) →
    (∀ i ∈ Body.instrs ns, i.IsDirect ctx.program ctx.analysis kept f.index) →
    {labels : List Label} → {ltypes : Program.Labels} → {outer types : TypeStack} →
    {results : List ValueType} → {es : State} →
    LabelsFit labels ltypes outer.length es.labels →
    Program.TypedSeq ctx.program f ltypes ns types results → es.stack = outer ++ types →
    Emits ctx f (emitSeq ctx f labels ns) es fun code es' =>
      Simulates ctx.program f env labels outer types (some results) es' code
        (Structured.evalSeq ctx.program env.exe.layout oracle ns)
  | [], hdirect, labels, ltypes, outer, types, results, es, hlabels, h, hstack => by
      cases h with
      | nil =>
          rw [emitSeq]
          refine .pure (.of_next fun below data st s hready hholds hfits hst => ?_)
          rw [Structured.evalSeq]
          exact ⟨data, st, s, rfl, Execution.meaning_nil, .refl s, hholds⟩
  | n :: ns, hdirect, labels, ltypes, outer, types, results, es, hlabels, h, hstack => by
      have hfirst : ∀ i ∈ n.instrs, i.IsDirect ctx.program ctx.analysis kept f.index :=
        fun i hi => hdirect i (List.mem_append_left _ hi)
      rw [emitSeq]
      cases h with
      | @cons _ _ _ _ mid _ hn hns =>
          refine .bind (emitNode_emits hset n hfirst hlabels hn hstack) ?_
          intro code es₁ hgrows₁ hcode
          refine .bind (emitSeq_emits hset ns (fun i hi => hdirect i (List.mem_append_right _ hi))
            (hlabels.mono (Nat.le_refl _) hgrows₁.labels) hns (hcode.1 mid rfl)) ?_
          intro rest es₂ hgrows₂ hrest
          refine .pure fun below data st s hready hholds hfits hst => ?_
          rw [Structured.evalSeq_cons, Execution.meaning_append]
          refine ((hcode.2 below data st s (hready.of_grows hgrows₂) hholds hfits hst).and_right
            fun b hb => Structured.evalNode_fits hset.formed hset.sound n hn hfits hst b.1 b.2
              hb).bind fun a b hab => ?_
          exact seq_rel hready hrest hab.1 hab.2
      | last hn =>
          refine .bind (emitNode_emits hset n hfirst hlabels hn hstack) ?_
          intro code es₁ _ hcode
          rw [emitSeq]
          refine .bind (.pure (Q := fun rest es' => rest = [] ∧ es' = es₁) ⟨rfl, rfl⟩) ?_
          rintro _ _ - ⟨rfl, rfl⟩
          refine .pure fun below data st s hready hholds hfits hst => ?_
          rw [List.append_nil, Structured.evalSeq_cons, ← Option.bind_fun_some (meaning env code s)]
          exact (hcode.2 below data st s hready hholds hfits hst).bind fun a b hab => last_rel hab

end

end Emit

end WasmShader
