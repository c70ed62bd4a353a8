import WasmShader.Proofs.FirstFrame

/-!
# Runs of entry points

An entry point that runs the dispatcher brings a lane to a situation, and the dispatcher takes the
steps from there. For one that starts an invocation this is the start of a call, if there is room for
its first frame (`callMeaning_machineEntry`). One that goes on with a suspended lane has nothing to
bring about: the lane rests at a situation already (`callMeaning_resumeEntry`).
-/

namespace WasmShader

open Compile Emit
open Execution (Datum Env FitsAll Lane storedAll meaning stmtMeaning callMeaning beginning
  body_machineEntry)

namespace Structured

variable {σ α : Type}

section Handing

variable {frames : List Frames} {out : Compiled} {env : Env} {oracle : Oracle σ} {exit : BlockId}
  {finals : List ValueType} {start : Situation σ} {t : Execution.State} {ln ln' : Lane}
  {f : Shader.Function}

theorem HaltsAt.of_kin {done : α} {e : Execution.Ending α}
    {x : Situation σ ⊕ Ending (Shared σ) (List Datum)} (hkin : ln.Kin ln')
    (h : HaltsAt frames out oracle exit finals start ln' done e x) :
    HaltsAt frames out oracle exit finals start ln done e x := by
  obtain ⟨r, t⟩ := e
  cases x with
  | inl s =>
      cases r with
      | error e => cases e <;> exact h.elim
      | ok a => exact ⟨h.1, hkin.trans h.2.1, h.2.2⟩
  | inr done =>
      obtain ⟨r', shared⟩ := done
      cases r with
      | ok a => cases r' <;> exact h.elim
      | error e =>
          cases r' with
          | ok results => cases e <;> exact h.elim
          | error e' =>
              cases e with
              | abort e => cases e' <;> exact h.elim
              | outOfFuel => cases e' <;> exact h.elim
              | trap c =>
                  cases e' with
                  | trap c' => exact ⟨h.1, hkin.trans h.2.1, h.2.2⟩
                  | stuck => exact h.elim
                  | hostFailed func e => exact h.elim

theorem Overflows.of_kin {e : Execution.Ending α} (hkin : ln.Kin ln')
    (h : Overflows frames out oracle finals start ln' e) :
    Overflows frames out oracle finals start ln e := by
  obtain ⟨r, t⟩ := e
  cases r with
  | ok a => exact h.elim
  | error e =>
      cases e with
      | trap c => exact ⟨h.1, hkin.trans h.2.1, h.2.2⟩
      | abort e => exact h.elim
      | outOfFuel => exact h.elim

/-- What the run of an entry point comes to, next to the steps of a situation: there is no room for a
situation that is reached, or both stop at the same. -/
def RunsFrom (frames : List Frames) (out : Compiled) (oracle : Oracle σ) (exit : BlockId)
    (finals : List ValueType) (start : Situation σ) (ln : Lane)
    (x : Option (Execution.Ending (List Datum))) : Prop :=
  (∃ e, x = some e ∧ Overflows frames out oracle finals start ln e)
    ∨ Option.Rel (HaltsAt frames out oracle exit finals start ln []) x
      (untilDone (Situation.stepOn out.program frames oracle) start)

/-- At the end of an entry point the dispatcher takes the steps of a situation. -/
theorem callMeaning_handing (h : Runner frames out env oracle) (hsteps : env.maxSteps = 0)
    (hcancelled : env.cancelled = false) (hexit : Execution.IsExit out exit finals)
    (hparams : f.params = []) (hresults : f.results = []) {pre : List Shader.Stmt}
    (hbody : f.body = pre ++ [callOnly dispatcherName])
    (hpre : meaning env pre { ln.entering with vars := Execution.Exec.frame f [] }
      = some (.ok .next, t)) (hat : start.At out exit finals t) (hkin : ln.Kin t.lane)
    (hpossible : start.Possible frames out finals)
    (hroom : out.layout.sizeOf finals ≤ (ln.words .io).size) :
    RunsFrom frames out oracle exit finals start ln (callMeaning env f [] ln.entering) := by
  have hrun := callMeaning_dispatcher h hsteps hcancelled hexit (by rw [hkin.sizes]; exact hroom)
    hpossible hat
  have hfound : env.exe.module.function? dispatcherName
      = some (dispatcher (out.blocks.map fun b => (b.id, b.name))) := by
    rw [h.exe]
    exact h.linked.runnable.dispatcher
  have hbefore : Execution.Exec.outcome (Execution.beforeCall env dispatcherName) t
      = some (.ok (), t) := by
    have hunnumbered : env.exe.blockNamed? dispatcherName = none := by
      rw [h.exe]
      exact h.linked.runnable.unnumbered _ (by decide)
    rw [Execution.beforeCall, hunnumbered]
    rfl
  have hcall : callMeaning env f [] ln.entering
      = (stmtMeaning env (callOnly dispatcherName) t).bind (Execution.andThen fun flow s' =>
        Execution.Exec.outcome (Execution.Exec.resultsOf f flow) { s' with vars := [] }) := by
    rw [Execution.callMeaning_eq (by rw [hparams]; rfl), hbody, Execution.meaning_append_next hpre,
      Execution.meaning_singleton]
    rfl
  rw [hcall]
  generalize hy : callMeaning env (dispatcher (out.blocks.map fun b => (b.id, b.name))) [] t = y at hrun
  have hends : ∀ got s, y = some (.ok got, s) → got = [] := by
    rintro got s rfl
    rcases hrun with ⟨e, he, hover⟩ | hrel
    · cases he
      exact hover.elim
    · obtain ⟨x, -, hhalts⟩ := hrel.of_some rfl
      cases x with
      | inl s' => exact hhalts.1
      | inr done =>
          obtain ⟨r, shared⟩ := done
          cases r <;> exact hhalts.elim
  rw [stmtMeaning_callOnly hfound hbefore (by rw [hy]; exact hends), hy]
  have hdone (s : Execution.State) : Execution.Exec.outcome (Execution.Exec.resultsOf f .next) s
      = some (.ok [], s) := by
    rw [Execution.Exec.resultsOf, hresults]
    rfl
  rcases hrun with ⟨e, rfl, hover⟩ | hrel
  · refine .inl ?_
    obtain ⟨r, t'⟩ := e
    cases r with
    | ok got => exact hover.elim
    | error e => exact ⟨_, rfl, hover.of_kin hkin⟩
  · refine .inr ?_
    generalize untilDone (Situation.stepOn out.program frames oracle) start = x at hrel
    cases hrel with
    | none => exact .none
    | @some e x hhalts =>
        obtain ⟨r, t'⟩ := e
        cases r with
        | error e => exact .some ((haltsAt_error hhalts).of_kin hkin)
        | ok got =>
            rw [Option.map_some, Option.bind_some]
            change Option.Rel _ (Execution.Exec.outcome (Execution.Exec.resultsOf f .next) _) _
            rw [hdone]
            obtain rfl := hends got t' rfl
            exact .some (HaltsAt.of_kin (e := (.ok [], { t' with vars := [] })) hkin
              (by cases x <;> exact hhalts))

end Handing

/-! ## Entry points -/

section Entries

variable {frames : List Frames} {out : Compiled} {env : Env} {oracle : Oracle σ} {exit : BlockId}
  {finals : List ValueType} {start : Situation σ} {ln : Lane} {fr : Frames} {data : List Datum}
  {shared : Shared σ} {stored : List UInt32}

/-- The words of the first situation of a call are those of the first frame. -/
theorem size_first (h : Runner frames out env oracle) (hfr : fr ∈ frames) :
    Situation.size out.layout fr.machine.func.type.results
        (⟨[], .run ⟨fr, 0, data, []⟩, shared⟩ : Situation σ)
      = firstSize out.layout fr.machine.func.type := by
  obtain ⟨hentry, htypes, -⟩ := h.machinery.first fr hfr
  have hwords := (h.machinery.payload hfr hentry).words
  rw [htypes] at hwords
  change out.layout.sizeOf fr.machine.func.type.results + 1 + 0 + ((fr.payload 0).words + 1) = _
  rw [hwords, firstSize]
  omega

/-- An entry point that runs the dispatcher runs a call of its function. -/
theorem callMeaning_machineEntry (h : Runner frames out env oracle) (hsteps : env.maxSteps = 0)
    (hcancelled : env.cancelled = false) (hfr : fr ∈ frames)
    (hexit : Execution.IsExit out exit fr.machine.func.type.results) (hsized : ln.Sized env.exe)
    (haddressable : ∀ r, ln.Addressable r) (hknown : AllKnown fr.machine.func.type.params)
    (hdata : FitsAll out.layout fr.machine.func.type.params data)
    (hio : ln.io.toList = storedAll out.layout fr.machine.func.type.params data ++ stored)
    (hshared : out.program.GlobalsFit out.layout shared.globals)
    (hglobals : ln.globals.toList = out.program.globalWords out.layout shared.globals)
    (hroom : out.layout.sizeOf fr.machine.func.type.results ≤ (ln.words .io).size)
    (hsmall : firstSize out.layout fr.machine.func.type < 2 ^ 32) (name : String) :
    RunsFrom frames out oracle exit fr.machine.func.type.results ⟨[], .run ⟨fr, 0, data, []⟩, shared⟩
      ln (callMeaning env (machineEntry out.layout name fr.machine.func.type
        ((out.blockContext fr).numberOf 0) exit out.stackWords) [] ln.entering) := by
  have hx : Execution.Runnable env.exe := by
    rw [h.exe]
    exact h.linked.runnable
  have hlayout : env.exe.layout = out.layout := by rw [h.exe]
  generalize hf : machineEntry out.layout name fr.machine.func.type
    ((out.blockContext fr).numberOf 0) exit out.stackWords = f
  have hbody := Execution.body_machineEntry out name fr.machine.func.type
    ((out.blockContext fr).numberOf 0) exit
  have hparams : f.params = [] := by rw [← hf]; rfl
  have hvars : Execution.Exec.frame f [] = [(spVar, .ofU32 0)] := by rw [← hf]; rfl
  rw [hf] at hbody
  obtain ⟨found, hsetup, hbased⟩ := stmtMeaning_setup hx hsized haddressable [(spVar, .ofU32 0)]
  have hhidden : ∀ v ∈ privates, List.lookup v.name [(spVar, Datum.ofU32 0)] = none := by decide
  have hframed : Framed ⟨ln, [(spVar, .ofU32 0)], found⟩ 0 := ⟨hbased, hhidden, rfl⟩
  have hsize : (ln.words .stack).size = LaneStack.headerWords + out.stackWords.toNat := by
    rw [hsized, h.exe]
    rfl
  have hpossible : Situation.Possible frames out fr.machine.func.type.results
      (⟨[], .run ⟨fr, 0, data, []⟩, shared⟩ : Situation σ) :=
    .run (Activation.start_fits h.machinery hfr hdata) .done hshared
  rcases Nat.lt_or_ge out.stackWords.toNat (firstSize out.layout fr.machine.func.type) with hover | hfit
  · obtain ⟨t, hrun, hkin⟩ := meaning_beginning_overflow hframed hknown hsize hover hsmall
    refine .inl ⟨(.error (.trap .stackOverflow), t), ?_, rfl, hkin, _, .refl, ?_, rfl⟩
    · rw [Execution.callMeaning_eq (by rw [hparams]; rfl), hbody, hvars]
      change (Execution.meaning env _ ⟨ln, [(spVar, .ofU32 0)], Execution.unset⟩).bind _ = _
      rw [Execution.meaning_cons_next hsetup, Execution.meaning_append, hrun]
      rfl
    · rw [size_first h hfr]
      exact hover
  · obtain ⟨room, ws, vars, hlen, hws, hinUse, hrun⟩ := meaning_beginning hlayout hframed hknown
      hdata hio hsize hfit
    have hkin : ln.Kin (Execution.State.lane { (Execution.State.withWords
        ⟨ln, [(spVar, .ofU32 0)], found⟩ .stack ws) with vars }) :=
      (Lane.Kin.refl ln).withWords (r := .stack) hws
    have hat : Situation.At out exit fr.machine.func.type.results
        (⟨[], .run ⟨fr, 0, data, []⟩, shared⟩ : Situation σ) { (Execution.State.withWords
          ⟨ln, [(spVar, .ofU32 0)], found⟩ .stack ws) with vars } := by
      have hwords : Situation.Words out exit _ ⟨[], .run ⟨fr, 0, data, []⟩, shared⟩ _ :=
        .run (.exit hlen)
      rw [Activation.words_start h hfr hdata.length_eq.symm] at hwords
      exact ⟨⟨⟨_, hwords, hinUse⟩, hws.trans hsize, hglobals⟩,
        hbased.of_sizes rfl hkin.index hkin.sizes⟩
    rw [← List.cons_append] at hbody
    refine callMeaning_handing h hsteps hcancelled hexit hparams (by rw [← hf]; rfl) hbody ?_ hat hkin
      hpossible hroom
    rw [hvars]
    exact (Execution.meaning_cons_next hsetup).trans hrun

/-- An entry point that goes on with a suspended lane takes the steps from where it rests. -/
theorem callMeaning_resumeEntry (h : Runner frames out env oracle) (hsteps : env.maxSteps = 0)
    (hcancelled : env.cancelled = false) (hexit : Execution.IsExit out exit finals)
    (hsized : ln.Sized env.exe) (haddressable : ∀ r, ln.Addressable r)
    (hroom : out.layout.sizeOf finals ≤ (ln.words .io).size)
    (hpossible : start.Possible frames out finals) (hrests : start.Rests out exit finals ln) :
    RunsFrom frames out oracle exit finals start ln (callMeaning env resumeEntry [] ln.entering) := by
  have hx : Execution.Runnable env.exe := by
    rw [h.exe]
    exact h.linked.runnable
  obtain ⟨privates, hsetup, hbased⟩ := stmtMeaning_setup hx hsized haddressable []
  exact callMeaning_handing h hsteps hcancelled hexit rfl rfl rfl
    ((Execution.meaning_singleton ..).trans hsetup) ⟨hrests, hbased⟩ (.refl ln) hpossible hroom

end Entries

end Structured

end WasmShader
