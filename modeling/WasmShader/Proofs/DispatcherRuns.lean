import WasmShader.Proofs.DispatcherTurns

/-!
# Runs of the dispatcher

A run of the dispatcher takes the steps of a situation until one is reached where no block is to be
run: the host is asked, or all calls have come back. Or a block traps, as the step does; or there is
no room for a situation that is reached, and the lane gives up (`callMeaning_dispatcher`).

When all calls have come back, the exit block still has to be run. So there the dispatcher is one
round behind.
-/

namespace WasmShader

open Compile Emit
open Execution (Datum Env FitsAll storedAll callMeaning looking running)

namespace Execution

/-- A lane at another point of an invocation: its words may differ, but not how many there are. -/
structure Lane.Kin (ln ln' : Lane) : Prop where
  index : ln'.index = ln.index
  entry : ln'.entry = ln.entry
  sizes : ∀ r, (ln'.words r).size = (ln.words r).size

namespace Lane.Kin

variable {ln ln' ln'' : Lane}

theorem refl (ln : Lane) : Kin ln ln := ⟨rfl, rfl, fun _ => rfl⟩

theorem trans (h : Kin ln ln') (h' : Kin ln' ln'') : Kin ln ln'' :=
  ⟨h'.index.trans h.index, h'.entry.trans h.entry, fun r => (h'.sizes r).trans (h.sizes r)⟩

theorem withWords {r : Region} {ws : Array UInt32} (h : Kin ln ln')
    (hsize : ws.size = (ln'.words r).size) : Kin ln (ln'.withWords r ws) :=
  h.trans ⟨Lane.index_withWords .., by cases r <;> rfl, size_withWords hsize⟩

theorem counted (h : Kin ln ln') (steps : Nat) (trace : List (BlockId × UInt32)) :
    Kin ln { ln' with steps, trace } :=
  h.trans ⟨rfl, rfl, fun r => by cases r <;> rfl⟩

theorem trapped (h : Kin ln ln') (code : TrapCode) :
    Kin ln { ln' with stack := ln'.stack.setTrap code } :=
  h.trans ⟨rfl, rfl, fun r => by
    cases r with
    | stack => exact Array.size_setIfInBounds
    | io => rfl
    | globals => rfl⟩

end Lane.Kin

end Execution

namespace Structured

open Execution (Lane)

variable {σ α : Type}

/-- No block is to be run. -/
def Situation.pauses (s : Situation σ) : Bool :=
  match s.task with
  | .run _ => false
  | .ask _ _ | .leave _ => true

/-- The situation is reached from another by steps. -/
def Situation.Reaches (p : Program) (frames : List Frames) (oracle : Oracle σ) :
    Situation σ → Situation σ → Prop :=
  Relation.ReflTransGen fun s s' => s.step p frames oracle = some (.inl s')

section Runs

variable (frames : List Frames) (out : Compiled) (oracle : Oracle σ) (exit : BlockId)
  (finals : List ValueType)

/-- The dispatcher is at a situation. -/
structure Turning (start : Situation σ) (ln : Lane) (t : Execution.State) (s : Situation σ) : Prop where
  here : s.At out exit finals t
  dispatching : Dispatching t
  possible : s.Possible frames out finals
  reached : start.Reaches out.program frames oracle s
  host : s.shared.host = start.shared.host
  kin : ln.Kin t.lane

/-- The lane rests at a situation where no block is to be run; final results are among its io words. -/
inductive Situation.Stopped : Situation σ → Lane → Prop
  | ask {waiting : List Activation} {func : HostFunc} {args : List Datum} {shared : Shared σ}
      {ln : Lane} : Situation.Rests out exit finals (⟨waiting, .ask func args, shared⟩ : Situation σ) ln →
      Stopped ⟨waiting, .ask func args, shared⟩ ln
  | leave {results : List Datum} {shared : Shared σ} {ln : Lane} : InUse (ln.words .stack) [] →
      ln.io.toList.take (out.layout.sizeOf finals) = storedAll out.layout finals results →
      Stopped ⟨[], .leave results, shared⟩ ln

/-- The dispatcher has ended where the steps pause, or with the same trap. -/
def HaltsAt (start : Situation σ) (ln : Lane) (done : α) :
    Execution.Ending α → Situation σ ⊕ Ending (Shared σ) (List Datum) → Prop
  | (.ok a, t), .inl s => a = done ∧ ln.Kin t.lane ∧ s.Possible frames out finals
    ∧ s.Stopped out exit finals t.lane ∧ start.Reaches out.program frames oracle s
    ∧ s.shared.host = start.shared.host
  | (.error (.trap c), t), .inr (.error (.trap c'), shared) =>
    c = c' ∧ ln.Kin t.lane ∧ shared.host = start.shared.host
  | _, _ => False

/-- The lane has no room for a situation that is reached. -/
def Overflows (start : Situation σ) (ln : Lane) : Execution.Ending α → Prop
  | (.error (.trap c), t) => c = .stackOverflow ∧ ln.Kin t.lane
    ∧ ∃ s, start.Reaches out.program frames oracle s
      ∧ out.stackWords.toNat < s.size out.layout finals ∧ s.shared.host = start.shared.host
  | _ => False

end Runs

section Turning

variable {frames : List Frames} {out : Compiled} {env : Env} {oracle : Oracle σ} {exit : BlockId}
  {finals : List ValueType} {waiting : List Activation} {a : Activation} {shared : Shared σ}
  {s start : Situation σ} {t t' : Execution.State} {ln : Lane} {below : List UInt32}

/-- The round of the dispatcher of a module. -/
noncomputable abbrev dispatcherRound (env : Env) (out : Compiled) :
    Execution.State → Option (Execution.State ⊕ Execution.Ending Execution.Flow) :=
  Execution.loopRound env dispatchLabel
    (looking ++ [running (out.blocks.map fun b => (b.id, b.name))])

/-- The steps of situations, up to where no block is to be run. -/
noncomputable abbrev Situation.stepOn (p : Program) (frames : List Frames) (oracle : Oracle σ) :
    Situation σ → Option (Situation σ ⊕ (Situation σ ⊕ Ending (Shared σ) (List Datum))) :=
  pausing Situation.pauses (Situation.step p frames oracle)

theorem Situation.Rests.counted (h : s.Rests out exit finals ln) (steps : Nat)
    (trace : List (BlockId × UInt32)) : s.Rests out exit finals { ln with steps, trace } :=
  ⟨h.words, h.size, h.globals⟩

/-- Counting a block changes nothing of where a lane is. -/
theorem Situation.At.counted (h : s.At out exit finals t) (hcounts : Counts t t') :
    s.At out exit finals t' := by
  obtain ⟨steps, trace, hlane⟩ := hcounts.lane
  refine ⟨?_, hcounts.dispatching.toBased⟩
  rw [hlane]
  exact h.toRests.counted steps trace

theorem kin_of_counts (hcounts : Counts t t') (h : ln.Kin t.lane) : ln.Kin t'.lane := by
  obtain ⟨steps, trace, hlane⟩ := hcounts.lane
  rw [hlane]
  exact h.counted steps trace

theorem Rewritten.kin (hrewritten : Rewritten t t') (h : ln.Kin t.lane) : ln.Kin t'.lane := by
  obtain ⟨gs, ws, hgs, hws, rfl⟩ := hrewritten
  exact (h.withWords (r := .globals) hgs).withWords (r := .stack) hws

theorem Rewritten.dispatching (hrewritten : Rewritten t t') (h : Dispatching t)
    (hbased : Based t') : Dispatching t' := by
  obtain ⟨gs, ws, -, -, rfl⟩ := hrewritten
  exact ⟨hbased, h.vars⟩

/-- Words of globals that fit are as many. -/
theorem length_globalWords {p : Program} {l : Layout} {values values' : List Datum}
    (h : p.GlobalsFit l values) (h' : p.GlobalsFit l values') :
    (p.globalWords l values).length = (p.globalWords l values').length := by
  rw [Program.globalWords, Program.globalWords, length_wordsOfGlobals h.length_eq,
    length_wordsOfGlobals h'.length_eq]

theorem kin_of_trapsIn {c : TrapCode} (h : TrapsIn out.program out.layout t c shared t')
    (hat : s.At out exit finals t) (hfit : out.program.GlobalsFit out.layout s.shared.globals)
    (hfit' : out.program.GlobalsFit out.layout shared.globals) (hkin : ln.Kin t.lane) :
    ln.Kin t'.lane := by
  obtain ⟨ws, hws, hlane⟩ := h
  rw [hlane]
  refine (hkin.withWords (r := .globals) ?_).trapped c
  change ws.size = t.lane.globals.size
  rw [← Array.length_toList, ← Array.length_toList, hws, hat.globals, length_globalWords hfit' hfit]

theorem Situation.Fits.globalsFit {p : Program} {l : Layout} {asked : HostFunc → Prop}
    (h : s.Fits p l asked frames finals) : p.GlobalsFit l s.shared.globals := by
  cases h with
  | run _ _ hshared => exact hshared
  | ask _ _ _ _ hshared => exact hshared
  | leave _ hshared => exact hshared

/-- The words of a situation are in use, and countable. -/
theorem Situation.At.exists_words (h : Runner frames out env oracle)
    (hat : s.At out exit finals t) : ∃ words, s.Words out exit finals words
      ∧ InUse (t.lane.words .stack) words ∧ words.length < 2 ^ 32 := by
  obtain ⟨words, hwords, hinUse⟩ := hat.words
  refine ⟨words, hwords, hinUse, ?_⟩
  obtain ⟨back, hback⟩ := hinUse
  have hsize := hat.size
  have hlimit := h.limit
  rw [← Array.length_toList, hback, List.length_cons, List.length_cons, List.length_append] at hsize
  change _ = 2 + _ at hsize
  omega

/-- What the end of the function of a block is for the dispatcher. -/
theorem meets_of_turnEnds (h : Runner frames out env oracle)
    (hturn : Turning frames out oracle exit finals start ln t ⟨waiting, .run a, shared⟩)
    (hcounts : Counts t t') {e : Execution.Ending (List Datum)}
    {x : Situation σ ⊕ Ending (Shared σ) (List Datum)}
    (hstep : Situation.step out.program frames oracle ⟨waiting, .run a, shared⟩ = some x)
    (hends : TurnEnds out exit finals t' e x) :
    (∃ c, afterBlock e = .inr c ∧ Overflows frames out oracle finals start ln c)
      ∨ Meets (Turning frames out oracle exit finals start ln)
          (HaltsAt frames out oracle exit finals start ln Execution.Flow.next)
          (dispatcherRound env out) (afterBlock e) (Sum.map id .inr x) := by
  have hkin := kin_of_counts hcounts hturn.kin
  have hat := hturn.here.counted hcounts
  have hleads := hturn.possible.step h.machinery h.sound hstep
  have hhost := (host_of_step h hturn.possible hstep).trans hturn.host
  obtain ⟨r, t''⟩ := e
  cases x with
  | inl s' =>
      have hreached := hturn.reached.tail hstep
      cases r with
      | ok results =>
          obtain ⟨-, hat', hrewritten⟩ := hends
          exact .inr ⟨t'', rfl, hat', hrewritten.dispatching hcounts.dispatching hat'.based, hleads,
            hreached, hhost, hrewritten.kin hkin⟩
      | error e =>
          cases e with
          | trap c =>
              obtain ⟨hc, hover, htraps⟩ := hends
              have hleads : s'.Possible frames out finals := hleads
              exact .inl ⟨_, rfl, hc, kin_of_trapsIn htraps hat hturn.possible.globalsFit
                hleads.globalsFit hkin, s', hreached, hover, hhost⟩
          | abort e => exact hends.elim
          | outOfFuel => exact hends.elim
  | inr done =>
      obtain ⟨r', shared'⟩ := done
      cases r with
      | ok results => exact hends.elim
      | error e =>
          cases e with
          | abort e => exact hends.elim
          | outOfFuel => exact hends.elim
          | trap c =>
              cases r' with
              | ok results => exact hends.elim
              | error e' =>
                  cases e' with
                  | stuck => exact hends.elim
                  | hostFailed func e => exact hends.elim
                  | trap c' =>
                      obtain ⟨hc, htraps⟩ := hends
                      exact .inr ⟨_, rfl, hc, kin_of_trapsIn htraps hat hturn.possible.globalsFit
                        hleads.2 hkin, hhost⟩

/-- Where a block is to be run, a round of the dispatcher runs it. -/
theorem round_run (h : Runner frames out env oracle) (hsteps : env.maxSteps = 0)
    (hcancelled : env.cancelled = false)
    (hturn : Turning frames out oracle exit finals start ln t ⟨waiting, .run a, shared⟩) :
    GivesUp (Overflows frames out oracle finals start ln) (dispatcherRound env out) t
      ∨ Option.Rel (Meets (Turning frames out oracle exit finals start ln)
          (HaltsAt frames out oracle exit finals start ln .next) (dispatcherRound env out))
        (dispatcherRound env out t)
        (Situation.stepOn out.program frames oracle ⟨waiting, .run a, shared⟩) := by
  obtain ⟨words, hwords, hinUse, hsmall⟩ := hturn.here.exists_words h
  obtain ⟨fn, hruns, -, hrun⟩ := run_turn h hturn.possible
  cases hwords with
  | @run _ _ _ below hbelow =>
      rw [List.length_append, List.length_singleton] at hsmall
      obtain ⟨t', hcounts, hround⟩ := round_running h.linked h.exe hsteps hcancelled
        hturn.dispatching hruns hinUse hsmall
      have hrel := hrun t' (hturn.here.counted hcounts)
      have hround : dispatcherRound env out t = (callMeaning env fn [] t').map afterBlock := by
        refine hround fun got s hgot => ?_
        obtain ⟨x, -, hends⟩ := hrel.of_some hgot
        cases x with
        | inl s' => exact hends.1
        | inr done =>
            obtain ⟨r, shared'⟩ := done
            cases r <;> exact hends.elim
      have hon : Situation.stepOn out.program frames oracle ⟨waiting, .run a, shared⟩
          = (Situation.step out.program frames oracle ⟨waiting, .run a, shared⟩).map
            (Sum.map id .inr) := rfl
      rw [hon, hround]
      generalize hcall : callMeaning env fn [] t' = y at hrel hround
      generalize hstep : Situation.step out.program frames oracle ⟨waiting, .run a, shared⟩ = x at hrel
      cases hrel with
      | none => exact .inr .none
      | some hends =>
          rcases meets_of_turnEnds h hturn hcounts hstep hends with ⟨c, hc, hover⟩ | hmeets
          · refine .inl ⟨c, untilDone_of_done ?_, hover⟩
            rw [hround, Option.map_some, hc]
          · exact .inr (.some hmeets)

/-- Where the host is asked, the dispatcher stops. -/
theorem round_ask (h : Runner frames out env oracle) {func : HostFunc} {args : List Datum}
    (hturn : Turning frames out oracle exit finals start ln t ⟨waiting, .ask func args, shared⟩) :
    ∃ c, dispatcherRound env out t = some (.inr c)
      ∧ HaltsAt frames out oracle exit finals start ln Execution.Flow.next c
        (.inl ⟨waiting, .ask func args, shared⟩) := by
  obtain ⟨words, hwords, hinUse, hsmall⟩ := hturn.here.exists_words h
  have hasked : out.hosts.lookup? func.id = some func := by
    cases hturn.possible with
    | ask hasked => exact hasked
  cases hwords with
  | @ask _ _ _ _ below hbelow =>
      rw [← List.append_assoc] at hinUse hsmall
      rw [List.length_append, List.length_singleton] at hsmall
      have hhost : BlockId.hostBit ≤ func.id.val :=
        UInt32.le_iff_toNat_le.mpr (h.linked.hosts func.id func hasked)
      obtain ⟨vars, hround⟩ := round_stops_host hturn.dispatching hinUse hsmall hhost
        [running (out.blocks.map fun b => (b.id, b.name))]
      exact ⟨_, hround, rfl, hturn.kin, hturn.possible, .ask hturn.here.toRests, hturn.reached,
        hturn.host⟩

/-- Where all calls have come back, the exit block is run, and then the dispatcher stops. -/
theorem round_leave (h : Runner frames out env oracle) (hsteps : env.maxSteps = 0)
    (hcancelled : env.cancelled = false) (hexit : Execution.IsExit out exit finals)
    (hroom : out.layout.sizeOf finals ≤ (ln.words .io).size) {results : List Datum}
    (hturn : Turning frames out oracle exit finals start ln t ⟨[], .leave results, shared⟩) :
    ∃ t' c, dispatcherRound env out t = some (.inl t')
      ∧ dispatcherRound env out t' = some (.inr c)
      ∧ HaltsAt frames out oracle exit finals start ln Execution.Flow.next c
        (.inl ⟨[], .leave results, shared⟩) := by
  obtain ⟨words, hwords, hinUse, hsmall⟩ := hturn.here.exists_words h
  have hresults : FitsAll out.layout finals results := by
    cases hturn.possible with
    | leave hresults => exact hresults
  cases hwords with
  | leave =>
      rw [List.length_append, List.length_singleton] at hsmall
      obtain ⟨name, hruns⟩ := hexit
      obtain ⟨t₁, hcounts, hround⟩ := round_running h.linked h.exe hsteps hcancelled
        hturn.dispatching hruns hinUse hsmall
      have hkin₁ := kin_of_counts hcounts hturn.kin
      have hinUse₁ : InUse (t₁.lane.words .stack) (storedAll out.layout finals results ++ [exit.val]) := by
        obtain ⟨steps, trace, hlane⟩ := hcounts.lane
        rw [hlane]
        exact hinUse
      have hlen := Execution.length_storedAll (l := out.layout) hresults.length_eq
      obtain ⟨io, ws, hio, hws, hempty, htake, hcall⟩ := callMeaning_exit
        hcounts.dispatching.toBased hinUse₁ hlen (by rw [hkin₁.sizes]; exact hroom)
      have hround : dispatcherRound env out t
          = some (.inl ((t₁.withWords .io io).withWords .stack ws)) := by
        refine (hround fun got s hgot => ?_).trans (by rw [hcall]; rfl)
        rw [hcall] at hgot
        cases hgot
        rfl
      have hkin : ln.Kin ((t₁.withWords .io io).withWords .stack ws).lane :=
        (hkin₁.withWords (r := .io) hio).withWords (r := .stack) hws
      have hdispatching : Dispatching ((t₁.withWords .io io).withWords .stack ws) :=
        ⟨hcounts.dispatching.toBased.of_sizes rfl
          (hkin.index.trans hkin₁.index.symm) fun r => (hkin.sizes r).trans (hkin₁.sizes r).symm,
          hcounts.dispatching.vars⟩
      obtain ⟨vars, hstop⟩ := round_stops_empty hdispatching hempty
        [running (out.blocks.map fun b => (b.id, b.name))]
      refine ⟨_, _, hround, hstop, rfl, hkin, hturn.possible, .leave hempty ?_, hturn.reached,
        hturn.host⟩
      rw [← hlen]
      exact htake

/-- A round of the dispatcher is a step, or there is no room for it. -/
theorem dispatcher_meets (h : Runner frames out env oracle) (hsteps : env.maxSteps = 0)
    (hcancelled : env.cancelled = false) (hexit : Execution.IsExit out exit finals)
    (hroom : out.layout.sizeOf finals ≤ (ln.words .io).size)
    (hturn : Turning frames out oracle exit finals start ln t s) :
    GivesUp (Overflows frames out oracle finals start ln) (dispatcherRound env out) t
      ∨ Option.Rel (Meets (Turning frames out oracle exit finals start ln)
          (HaltsAt frames out oracle exit finals start ln .next) (dispatcherRound env out))
        (dispatcherRound env out t) (Situation.stepOn out.program frames oracle s) := by
  obtain ⟨waiting, task, shared⟩ := s
  cases task with
  | run a => exact round_run h hsteps hcancelled hturn
  | ask func args =>
      obtain ⟨c, hround, hhalts⟩ := round_ask h hturn
      rw [hround]
      exact .inr (.some ⟨c, rfl, hhalts⟩)
  | leave results =>
      obtain rfl : waiting = [] := by
        cases hturn.possible
        rfl
      obtain ⟨t', c, hround, hstop, hhalts⟩ := round_leave h hsteps hcancelled hexit hroom hturn
      rw [hround]
      exact .inr (.some ⟨c, untilDone_of_done hstop, hhalts⟩)

theorem haltsAt_error {β : Type} {done : α} {done' : β} {e : Execution.Stop}
    {x : Situation σ ⊕ Ending (Shared σ) (List Datum)}
    (h : HaltsAt frames out oracle exit finals start ln done (.error e, t) x) :
    HaltsAt frames out oracle exit finals start ln done' (.error e, t) x := by
  cases x with
  | inl s => cases e <;> exact h.elim
  | inr done =>
      obtain ⟨r, shared⟩ := done
      cases r with
      | ok results => cases e <;> exact h.elim
      | error e' => cases e <;> cases e' <;> exact h

/-- The dispatcher takes the steps of a situation, up to where no block is to be run. -/
theorem callMeaning_dispatcher (h : Runner frames out env oracle) (hsteps : env.maxSteps = 0)
    (hcancelled : env.cancelled = false) (hexit : Execution.IsExit out exit finals)
    (hroom : out.layout.sizeOf finals ≤ (t.lane.words .io).size)
    (hpossible : start.Possible frames out finals) (hat : start.At out exit finals t) :
    (∃ e, callMeaning env (dispatcher (out.blocks.map fun b => (b.id, b.name))) [] t = some e
        ∧ Overflows frames out oracle finals start t.lane e)
      ∨ Option.Rel (HaltsAt frames out oracle exit finals start t.lane [])
        (callMeaning env (dispatcher (out.blocks.map fun b => (b.id, b.name))) [] t)
        (untilDone (Situation.stepOn out.program frames oracle) start) := by
  let t₀ : Execution.State := { t with vars := [(numberVar, .ofU32 0), (spVar, .ofU32 0)] }
  have hbased : Based t₀ := hat.based.of_sizes rfl rfl fun _ => rfl
  have hturn : Turning frames out oracle exit finals start t.lane t₀ start :=
    ⟨⟨hat.toRests, hbased⟩, ⟨hbased, 0, 0, rfl⟩, hpossible, .refl, rfl, .refl _⟩
  have hcall : callMeaning env (dispatcher (out.blocks.map fun b => (b.id, b.name))) [] t
      = (untilDone (dispatcherRound env out) t₀).bind (Execution.andThen fun flow s' =>
        Execution.Exec.outcome (Execution.Exec.resultsOf
          (dispatcher (out.blocks.map fun b => (b.id, b.name))) flow) { s' with vars := t.vars }) := by
    rw [Execution.callMeaning_eq rfl, Execution.body_dispatcher, Execution.meaning_singleton,
      Execution.stmtMeaning_loop hcancelled]
    rfl
  rw [hcall]
  rcases untilDone_meets (fun t s hturn =>
    dispatcher_meets h hsteps hcancelled hexit hroom hturn) hturn with ⟨e, he, hover⟩ | hrel
  · refine .inl ?_
    obtain ⟨r, t'⟩ := e
    cases r with
    | ok flow => exact hover.elim
    | error e =>
        rw [he]
        exact ⟨_, rfl, by cases e <;> exact hover⟩
  · refine .inr ?_
    generalize untilDone (dispatcherRound env out) t₀ = x at hrel
    generalize untilDone (Situation.stepOn out.program frames oracle) start = y at hrel
    cases hrel with
    | none => exact .none
    | @some e x hends =>
        obtain ⟨r, t'⟩ := e
        cases r with
        | ok flow =>
            cases x with
            | inr done =>
                obtain ⟨r', shared'⟩ := done
                cases r' <;> exact hends.elim
            | inl s' =>
                obtain ⟨rfl, hends⟩ := hends
                exact .some ⟨rfl, hends⟩
        | error e => exact .some (haltsAt_error hends)

end Turning

end Structured

end WasmShader
