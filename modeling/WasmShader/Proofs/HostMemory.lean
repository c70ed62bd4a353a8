import WasmShader.Proofs.BlockForm
import WasmShader.Proofs.DirectForm

/-!
# Code that leaves the host alone

Only requests to the host change what the host remembers. The code of a block makes none, and the
functions that it calls by their direct forms do not either, nor do those that they call. So all that
happens to the memory of the host happens between blocks (`evalBlock_aloof`).
-/

namespace WasmShader

open Execution (Datum)

namespace Structured

variable {σ α β : Type}

/-! ## Evaluations without requests -/

/-- The evaluation leaves the memory of the host as it is. -/
def Aloof (x : Eval σ α) : Prop := ∀ st r, x st = some r → r.2.shared.host = st.shared.host

theorem Aloof.pure (a : α) : Aloof (Pure.pure a : Eval σ α) := by
  rintro st _ ⟨⟩
  rfl

theorem aloof_throw (e : Stop) : Aloof (throw e : Eval σ α) := by
  rintro st _ ⟨⟩
  rfl

theorem Aloof.bind {x : Eval σ α} {k : α → Eval σ β} (hx : Aloof x) (hk : ∀ a, Aloof (k a)) :
    Aloof (x >>= k) := by
  intro st r hr
  rw [bind_apply] at hr
  obtain ⟨⟨a, st'⟩, ha, hr⟩ := Option.bind_eq_some_iff.mp hr
  have hfirst := hx st _ ha
  cases a with
  | error e =>
      cases hr
      exact hfirst
  | ok a => exact (hk a st' r hr).trans hfirst

theorem Aloof.ite {c : Prop} [Decidable c] {x y : Eval σ α} (hx : Aloof x) (hy : Aloof y) :
    Aloof (if c then x else y) := by
  split
  · exact hx
  · exact hy

theorem aloof_split (n : Nat) (stack : List Datum) :
    Aloof (split n stack : Eval σ (List Datum × List Datum)) := by
  intro st r hr
  rw [split_store hr]

theorem aloof_popOne (stack : List Datum) : Aloof (popOne stack : Eval σ (List Datum × Datum)) := by
  unfold popOne
  refine (aloof_split 1 stack).bind fun parts => ?_
  split
  · exact .pure _
  · exact aloof_throw _

theorem aloof_get : Aloof (get : Eval σ (Store σ)) := by
  rintro st _ ⟨⟩
  rfl

theorem aloof_getLocal (idx : Nat) : Aloof (getLocal idx : Eval σ Datum) := by
  unfold getLocal
  refine aloof_get.bind fun st => ?_
  split
  · exact .pure _
  · exact aloof_throw _

theorem aloof_getGlobal (idx : Nat) : Aloof (getGlobal idx : Eval σ Datum) := by
  unfold getGlobal
  refine aloof_get.bind fun st => ?_
  split
  · exact .pure _
  · exact aloof_throw _

theorem aloof_setLocal (idx : Nat) (d : Datum) : Aloof (setLocal idx d : Eval σ Unit) := by
  rintro st _ ⟨⟩
  rfl

theorem aloof_setGlobal (idx : Nat) (d : Datum) : Aloof (setGlobal idx d : Eval σ Unit) := by
  rintro st _ ⟨⟩
  rfl

/-! ## Bodies without requests -/

/-- Calls of the functions leave the memory of the host as it is. -/
def Oracle.Aloof (oracle : Oracle σ) (fns : Nat → Prop) : Prop :=
  ∀ fn, fns fn → ∀ args shared r, oracle (.call fn) args shared = some r → r.2.host = shared.host

section Bodies

variable {p : Program} {l : Layout} {oracle : Oracle σ} {fns : Nat → Prop} {a : Analysis}
  {kept : Nat → Prop} {fn : Nat}

theorem aloof_askTop (horacle : oracle.Aloof fns) (hfn : fns fn) (n : Nat)
    (stack : List Datum) : Aloof (askTop oracle (.call fn) n stack) := by
  refine (aloof_split n stack).bind fun parts => .bind ?_ fun _ => .pure _
  intro st r hr
  obtain ⟨answer, hanswer, rfl⟩ := Option.map_eq_some_iff.mp hr
  exact horacle fn hfn _ _ answer hanswer

theorem callRequest_of_not_import {target : Nat} (h : p.isImport target = false) :
    callRequest p target = .call target := by
  rw [Program.isImport, decide_eq_false_iff_not, Nat.not_lt] at h
  rw [callRequest, List.getElem?_eq_none h]

/-- The calls that a function makes by direct forms leave the memory of the host as it is. -/
abbrev AloofFrom (p : Program) (oracle : Oracle σ) (a : Analysis) (kept : Nat → Prop) (fn : Nat) :
    Prop :=
  oracle.Aloof fun target => (∃ f, p.func? target = some f) ∧ a.canCallDirect fn target = true
    ∧ kept target

theorem aloof_evalInstr (horacle : AloofFrom p oracle a kept fn) {i : Instr}
    (hi : i.IsDirect p a kept fn) (stack : List Datum) : Aloof (evalInstr p l oracle i stack) := by
  obtain ⟨hindirect, hsize, hgrow, hcall⟩ := hi
  unfold evalInstr
  generalize i.operation = op at hindirect hsize hgrow hcall
  generalize i.imm = imm at hcall
  dsimp only
  split
  case h_1 =>
    refine (aloof_split _ stack).bind fun parts => ?_
    split
    · exact .pure _
    · exact aloof_throw _
    · exact aloof_throw _
  case h_14 =>
    refine (aloof_split 3 stack).bind fun parts => ?_
    split
    · exact .pure _
    · exact aloof_throw _
  case h_20 target =>
    obtain ⟨himport, htarget⟩ := hcall target rfl rfl
    split
    · next sig hsig =>
      rw [Program.signature?, himport, if_neg Bool.false_ne_true] at hsig
      obtain ⟨f, hf, -⟩ := Option.map_eq_some_iff.mp hsig
      rw [callRequest_of_not_import himport]
      exact aloof_askTop horacle ⟨⟨f, hf⟩, htarget⟩ _ stack
    · exact aloof_throw _
  all_goals first
    | exact absurd rfl hindirect
    | exact absurd rfl hsize
    | exact absurd rfl hgrow
    | exact .pure _
    | exact aloof_throw _
    | exact (aloof_popOne stack).bind fun _ => .pure _
    | exact (aloof_getLocal _).bind fun _ => .pure _
    | exact (aloof_getGlobal _).bind fun _ => .pure _
    | exact (aloof_popOne stack).bind fun _ => (aloof_setLocal _ _).bind fun _ => .pure _
    | exact (aloof_popOne stack).bind fun _ => (aloof_setGlobal _ _).bind fun _ => .pure _

theorem aloof_evalLoop {n : Nat} {body : List Datum → Eval σ Flow} (h : ∀ args, Aloof (body args))
    (args : List Datum) : Aloof (evalLoop n body args) := by
  intro st r hr
  obtain ⟨count, hcount⟩ := untilDone_eq_some_iff.mp hr
  clear hr
  induction count generalizing args st with
  | zero => cases hcount
  | succ count ih =>
      rw [within_succ_eq] at hcount
      obtain ⟨x, hx, hcount⟩ := Option.bind_eq_some_iff.mp hcount
      obtain ⟨e, he, rfl⟩ := Option.map_eq_some_iff.mp hx
      have hround := h args st e he
      obtain ⟨flow, st'⟩ := e
      unfold roundEnd at hcount
      split at hcount
      · next stack st'' heq =>
        cases heq
        exact (ih _ _ hcount).trans hround
      · cases hcount
        exact hround

mutual

theorem aloof_evalNode (horacle : AloofFrom p oracle a kept fn) :
    (n : Node) → (∀ i ∈ n.instrs, i.IsDirect p a kept fn) → (stack : List Datum) →
      Aloof (evalNode p l oracle n stack)
  | .instr i, hn, stack => by
      rw [evalNode]
      exact aloof_evalInstr horacle (hn i (by rw [Node.instrs]; exact List.mem_singleton_self i)) stack
  | .block loop sig body, hn, stack => by
      rw [evalNode]
      have hbody := aloof_evalSeq horacle body (by rw [Node.instrs] at hn; exact hn)
      refine (aloof_split _ stack).bind fun parts => .bind ?_ fun _ => .pure _
      exact .ite (aloof_evalLoop hbody _) (hbody _)
  | .ifThen sig body, hn, stack => by
      rw [evalNode]
      have hbody := aloof_evalSeq horacle body (by rw [Node.instrs] at hn; exact hn)
      refine (aloof_popOne stack).bind fun parts => (aloof_split _ _).bind fun parts' =>
        .bind ?_ fun _ => .pure _
      exact .ite (hbody _) (.pure _)
  | .ifElse sig body alternative, hn, stack => by
      rw [evalNode]
      rw [Node.instrs] at hn
      have hbody := aloof_evalSeq horacle body fun i hi => hn i (List.mem_append_left _ hi)
      have halternative := aloof_evalSeq horacle alternative
        fun i hi => hn i (List.mem_append_right _ hi)
      refine (aloof_popOne stack).bind fun parts => (aloof_split _ _).bind fun parts' =>
        .bind ?_ fun _ => .pure _
      exact .ite (hbody _) (halternative _)

theorem aloof_evalSeq (horacle : AloofFrom p oracle a kept fn) :
    (ns : List Node) → (∀ i ∈ Body.instrs ns, i.IsDirect p a kept fn) → (stack : List Datum) →
      Aloof (evalSeq p l oracle ns stack)
  | [], _, stack => by
      rw [evalSeq]
      exact .pure _
  | n :: ns, hns, stack => by
      rw [evalSeq]
      rw [Body.instrs] at hns
      refine (aloof_evalNode horacle n (fun i hi => hns i (List.mem_append_left _ hi)) stack).bind
        fun flow => ?_
      cases flow with
      | next stack' =>
          exact aloof_evalSeq horacle ns (fun i hi => hns i (List.mem_append_right _ hi)) stack'
      | branch depth stack' => exact .pure _
      | ret stack' => exact .pure _

end

/-- A block leaves the memory of the host as it is. -/
theorem evalBlock_aloof (horacle : AloofFrom p oracle a kept fn) {b : Block}
    (hb : ∀ i ∈ Body.instrs b.body, i.IsDirect p a kept fn) (stack : List Datum) :
    Aloof (evalBlock p l oracle b stack) := by
  unfold evalBlock
  refine (aloof_evalSeq horacle b.body hb stack).bind fun flow => ?_
  split
  · intro st r hr
    rw [exitBy_store hr]
  · exact aloof_throw _

/-- A function without requests leaves the memory of the host as it is. -/
theorem evalFunction_aloof (horacle : AloofFrom p oracle a kept fn) {f : Function}
    (hf : ∀ body, f.body = .ok body → ∀ i ∈ Body.instrs body, i.IsDirect p a kept fn)
    {args : List Datum} {shared : Shared σ} {r : Ending (Shared σ) (List Datum)}
    (hr : evalFunction p l oracle f args shared = some r) : r.2.host = shared.host := by
  unfold evalFunction at hr
  cases hbody : f.body with
  | error e =>
      rw [hbody] at hr
      cases hr
      rfl
  | ok body =>
      rw [hbody] at hr
      obtain ⟨e, he, rfl⟩ := Option.map_eq_some_iff.mp hr
      exact aloof_evalSeq horacle body (hf body hbody) [] _ e he

end Bodies

end Structured

namespace Emit

open Structured

variable {σ : Type} {ctx : Context} {kept : Nat → Prop} {l : Layout} {oracle : Oracle σ}

/-- Direct-safe functions leave the memory of the host as it is. Callees come before their callers,
so theirs may be assumed. -/
theorem aloof_of_directSafe (hctx : Checked ctx kept) (horacle : Answers ctx.program l kept oracle) :
    oracle.Aloof fun fn => (∃ f, ctx.program.func? fn = some f) ∧ ctx.analysis.directSafe fn = true
      ∧ kept fn := by
  intro fn hfn
  induction hn : (ctx.analysis.rank fn + 1).toNat using Nat.strongRecOn generalizing fn with
  | ind n ih =>
  obtain ⟨⟨f, hf⟩, hsafe, hkept⟩ := hfn
  obtain rfl := index_of_func? hctx.formed hf
  have hmem := mem_of_func? hf
  obtain ⟨g, hg, hanalysis⟩ := hctx.analysis
  intro args shared r hr
  rw [horacle.call f hmem hkept] at hr
  have hcallees : AloofFrom ctx.program oracle ctx.analysis kept f.index := by
    rintro target ⟨hfunc, hcan, htarget⟩
    rw [Analysis.canCallDirect, Bool.and_eq_true, decide_eq_true_eq] at hcan
    have hge := CallGraph.neg_one_le_rank ctx.analysis target
    exact ih _ (by omega) target ⟨hfunc, hcan.1, htarget⟩ rfl
  refine evalFunction_aloof hcallees (fun body hbody => ?_) hr
  rw [hanalysis] at hsafe ⊢
  exact isDirect_of_directSafe hctx.formed hg hmem hbody hsafe (hctx.calls f hmem hkept)

/-- What a function calls by direct forms leaves the memory of the host as it is. -/
theorem aloofFrom_of_answers (hctx : Checked ctx kept)
    (horacle : Answers ctx.program l kept oracle) {leads : Nat → Prop}
    (hleads : ∀ target, leads target → kept target) (fn : Nat) :
    AloofFrom ctx.program oracle ctx.analysis leads fn := by
  rintro target ⟨hfunc, hcan, htarget⟩
  rw [Analysis.canCallDirect, Bool.and_eq_true] at hcan
  exact aloof_of_directSafe hctx horacle target ⟨hfunc, hcan.1, hleads target htarget⟩

end Emit

end WasmShader
