import WasmShader.Proofs.FirstFrame
import WasmShader.Proofs.CompiledSetting

/-!
# Runs of direct entries

An entry point whose function needs neither the dispatcher nor the host calls the direct form of the
function. It reads the arguments from the io words and writes the results over them
(`meaning_ioStores`), so it ends as the call does (`callMeaning_directEntry`), and the stack is empty
behind it.
-/

namespace WasmShader

open Compile Emit Structured
open Execution (Datum Env FitsAll Lane storedAll meaning stmtMeaning callMeaning)

namespace Emit

/-! ## Variables of the results -/

theorem resultName_inj {i j : Nat} (h : resultName i = resultName j) : i = j := by
  have hlist := congrArg String.toList h
  simp only [resultName, String.toList_append] at hlist
  exact toString_inj (List.append_cancel_left hlist)

/-- The variables of the results of a direct form. -/
def resultNames (types : List ValueType) : List String := types.mapIdx fun i _ => resultName i

theorem nodup_resultNames (types : List ValueType) : (resultNames types).Nodup := by
  rw [List.nodup_iff_getElem?_ne_getElem?]
  intro i j hij hj heq
  have hname {k : Nat} (hk : k < (resultNames types).length) :
      (resultNames types)[k]? = some (resultName k) := by
    rw [resultNames, List.length_mapIdx] at hk
    rw [resultNames, List.getElem?_mapIdx, List.getElem?_eq_getElem hk]
    rfl
  rw [hname (by omega), hname hj, Option.some.injEq] at heq
  exact absurd (resultName_inj heq) (by omega)

theorem mem_resultNames {types : List ValueType} {name : String} (h : name ∈ resultNames types) :
    ∃ i, name = resultName i := by
  obtain ⟨i, -, rfl⟩ := List.mem_mapIdx.mp h
  exact ⟨i, rfl⟩

/-- Variables that are there take on values one after the other. -/
theorem outcome_assignAll {names : List String} {data : List Datum} {s : Execution.State}
    (hnodup : names.Nodup) (hlen : names.length = data.length)
    (hpresent : ∀ n ∈ names, (s.vars.lookup n).isSome = true) :
    ∃ vars, Execution.Exec.outcome (Execution.Exec.assignAll names data) s
        = some (.ok (), { s with vars })
      ∧ Stand { s with vars } names data ∧ ∀ m, m ∉ names → vars.lookup m = s.vars.lookup m := by
  induction names generalizing data s with
  | nil =>
      cases data with
      | nil => exact ⟨s.vars, rfl, .nil, fun _ _ => rfl⟩
      | cons d data => cases hlen
  | cons n names ih =>
      cases data with
      | nil => cases hlen
      | cons d data =>
          rw [List.nodup_cons] at hnodup
          obtain ⟨d₀, hd₀⟩ := Option.isSome_iff_exists.mp (hpresent n List.mem_cons_self)
          obtain ⟨vars₁, hassign, hvars₁⟩ := Execution.State.assign?_of_lookup hd₀ d
          obtain ⟨vars, hrun, hstand, hother⟩ := ih (s := { s with vars := vars₁ }) hnodup.2
            (Nat.succ.inj hlen) fun m hm => by
              have hne : m ≠ n := fun heq => hnodup.1 (heq ▸ hm)
              change (vars₁.lookup m).isSome = true
              rw [hvars₁, if_neg hne]
              exact hpresent m (List.mem_cons_of_mem _ hm)
          refine ⟨vars, ?_, .cons ?_ hstand, fun m hm => ?_⟩
          · rw [Execution.Exec.assignAll,
              Execution.Exec.outcome_bind_ok (Execution.outcome_assign hassign)]
            exact hrun
          · exact (hother n hnodup.1).trans (by rw [hvars₁, if_pos rfl])
          · rw [List.mem_cons, not_or] at hm
            exact (hother m hm.2).trans (by rw [hvars₁, if_neg hm.1])

/-! ## Results -/

/-- The code that writes variables to the io words, one after the other. -/
def ioStores (l : Layout) (start : Nat) : List String → List ValueType → List Shader.Stmt
  | n :: names, t :: types =>
    storeValue l ioBuffer (baseWord ioBase start) (.var n) t
      ++ ioStores l (start + l.words t) names types
  | _, _ => []

theorem flatten_stores (l : Layout) (start : Nat) (types : List ValueType) (name : Nat → String) :
    ((types.zip (l.offsetsFrom start types)).mapIdx fun i (t, off) =>
        storeValue l ioBuffer (baseWord ioBase off) (.var (name i)) t).flatten
      = ioStores l start (types.mapIdx fun i _ => name i) types := by
  induction types generalizing start name with
  | nil => rfl
  | cons t types ih =>
      rw [Layout.offsetsFrom, List.zip_cons_cons, List.mapIdx_cons, List.mapIdx_cons,
        List.flatten_cons, ioStores, ← ih]

section Stores

variable {env : Env} {s : Execution.State} {types : List ValueType} {names : List String}
  {data : List Datum} {start : Nat} {front back : List UInt32}

/-- Variables are written over the io words. -/
theorem meaning_ioStores (hs : Grounded s) (hknown : AllKnown types) (hlen : types.length = data.length)
    (hstand : Stand s names data) (hwords : (s.lane.words .io).toList = front ++ back)
    (hfront : front.length = start) (hroom : env.exe.layout.sizeOf types ≤ back.length) :
    ∃ ws : Array UInt32, ws.toList = front ++ storedAll env.exe.layout types data
        ++ back.drop (env.exe.layout.sizeOf types)
      ∧ meaning env (ioStores env.exe.layout start names types) s
        = some (.ok .next, s.withWords .io ws) := by
  induction names generalizing s types data start front back with
  | nil =>
      cases hstand
      obtain rfl := List.length_eq_zero_iff.mp hlen
      refine ⟨s.lane.words .io, ?_, ?_⟩
      · rw [hwords]
        exact congrArg (· ++ back) (List.append_nil front).symm
      · rw [Execution.State.withWords_words]
        exact Execution.meaning_nil
  | cons n names ih =>
      cases hstand with
      | @cons _ d _ data hd hstand =>
      cases types with
      | nil => cases hlen
      | cons t types =>
          rw [Layout.sizeOf_cons] at hroom ⊢
          have hsize : (s.lane.words .io).size = start + back.length := by
            rw [← Array.length_toList, hwords, List.length_append, hfront]
          have hplaces : Execution.PlacesAt env.exe.layout s ioBuffer .io (baseWord ioBase start) start
              (env.exe.layout.words t) :=
            Execution.placesAt_baseWord (hs.hidden ⟨ioBase, .u32⟩ (by decide)) hs.io
              (hs.addressable .io) rfl (by omega)
          have hfirst := Execution.meaning_storeValue (hknown t List.mem_cons_self) hplaces
            (v := .var n) (d := d) fun us _ => Execution.State.lookup_of_vars hd
          have hstored := d.length_stored env.exe.layout t
          have hwritten : (LaneStack.writeAt (s.lane.words .io) start
              (d.stored env.exe.layout t)).toList
                = front ++ d.stored env.exe.layout t ++ back.drop (env.exe.layout.words t) := by
            have hsplit : (s.lane.words .io).toList = front ++ back.take (env.exe.layout.words t)
                ++ back.drop (env.exe.layout.words t) := by
              rw [List.append_assoc, List.take_append_drop, hwords]
            refine Execution.toList_writeAt_of_append hsplit hfront ?_
            rw [hstored, List.length_take]
            omega
          have hfront' : (front ++ d.stored env.exe.layout t).length
              = start + env.exe.layout.words t := by
            rw [List.length_append, hfront, hstored]
          obtain ⟨ws, hws, hrest⟩ := ih (hs.withWords (r := .io) (Execution.size_writeAt ..))
            (fun u hu => hknown u (List.mem_cons_of_mem _ hu)) (Nat.succ.inj hlen) hstand
            ((congrArg Array.toList (Execution.Lane.words_withWords s.lane .io _)).trans hwritten)
            hfront' (by rw [List.length_drop]; omega)
          refine ⟨ws, ?_, ?_⟩
          · rw [hws, Execution.storedAll_cons, List.drop_drop]
            simp only [List.append_assoc]
          · rw [ioStores, Execution.meaning_append_next hfirst, hrest,
              Execution.State.withWords_withWords]

/-- Arguments are read from the io words. -/
theorem evalAll_ioArgs {l : Layout} (hs : Grounded s) (hknown : AllKnown types)
    (hfits : FitsAll l types data)
    (hwords : (s.lane.words .io).toList = front ++ storedAll l types data ++ back)
    (hfront : front.length = start) :
    Execution.evalAll l s ((ioArgsFrom l start types).map (·.2)) = .ok data := by
  induction hfits generalizing start front with
  | nil => rfl
  | @cons t d types data hd _ ih =>
      rw [Execution.storedAll_cons, ← List.append_assoc] at hwords
      have hwords' : (s.lane.words .io).toList
          = front ++ d.stored l t ++ (storedAll l types data ++ back) := by
        rw [hwords, List.append_assoc]
      have hfirst := eval_ioStored hs (hknown t List.mem_cons_self) hd hwords' hfront
      have hrest := ih (fun u hu => hknown u (List.mem_cons_of_mem _ hu)) hwords
        (by rw [List.length_append, hfront, Datum.length_stored])
      change Execution.evalAll l s (loadValue l ioBuffer (baseWord ioBase start) t
        :: (ioArgsFrom l (start + l.words t) types).map (·.2)) = _
      rw [Execution.evalAll, hfirst, hrest]
      rfl

end Stores

end Emit

namespace Structured

variable {σ : Type}

/-! ## The whole entry point -/

/-- An entry point that calls a direct form has ended as the call: with its results among the io words
and nothing on the stack, or with the same trap. -/
def DirectEnds (p : Program) (l : Layout) (results : List ValueType) (ln : Lane) :
    Execution.Ending (List Datum) → Ending (Shared σ) (List Datum) → Prop
  | (.ok _, t), (.ok data, shared) => ln.Kin t.lane ∧ InUse (t.lane.words .stack) []
    ∧ t.lane.io.toList.take (l.sizeOf results) = storedAll l results data
    ∧ t.lane.globals.toList = p.globalWords l shared.globals
  | (.error (.trap c), t), (.error (.trap c'), _) => c = c' ∧ ln.Kin t.lane
  | _, _ => False

section Entry

variable {p : Program} {env : Env} {oracle : Oracle σ} {ln : Lane} {fn : Shader.Function}
  {sig : Signature} {callee : String} {data : List Datum} {shared : Shared σ} {stored : List UInt32}
  {target : Nat}

theorem body_directEntry (l : Layout) (name callee : String) (sig : Signature) :
    (directEntry l name callee sig).body
      = callOnly setupName :: .store stackBuffer (.var headerBase) (.u32 0)
        :: .store stackBuffer trapPlace (.u32 0)
        :: .call callee ((ioArgsFrom l 0 sig.params).map (·.2)) (resultNames sig.results)
        :: ioStores l 0 (resultNames sig.results) sig.results := by
  rw [resultNames, ← flatten_stores]
  rfl

/-- The variables that a direct entry starts with hide no base. -/
theorem hidden_directEntry (l : Layout) (name callee : String) (sig : Signature) :
    ∀ v ∈ privates, (Execution.Exec.frame (directEntry l name callee sig) []).lookup v.name = none := by
  intro v hv
  rw [← Option.not_isSome_iff_eq_none]
  intro hsome
  obtain ⟨d, hd⟩ := Option.isSome_iff_exists.mp hsome
  rcases Execution.of_lookup_frame hd with ⟨i, hi, -⟩ | ⟨u, hu, hname, -⟩
  · cases hi
  · obtain ⟨i, hi, rfl⟩ := List.mem_mapIdx.mp hu
    exact resultName_not_mem i (List.mem_map.mpr ⟨v, hv, Eq.symm hname⟩)

/-- What the call gives is put among the io words. -/
theorem meaning_results (env : Env) {s : Execution.State} (hs : Grounded s) {name : String}
    (hvars : s.vars = Execution.Exec.frame (directEntry env.exe.layout name callee sig) [])
    (hknown : AllKnown sig.results) (hfits : FitsAll env.exe.layout sig.results data)
    (hroom : env.exe.layout.sizeOf sig.results ≤ (s.lane.words .io).size) :
    ∃ (vars : Execution.Vars) (io : Array UInt32), io.size = (s.lane.words .io).size
      ∧ io.toList.take (env.exe.layout.sizeOf sig.results) = storedAll env.exe.layout sig.results data
      ∧ Execution.Exec.outcome (Execution.Exec.assignAll (resultNames sig.results) data) s
        = some (.ok (), { s with vars })
      ∧ meaning env (ioStores env.exe.layout 0 (resultNames sig.results) sig.results) { s with vars }
        = some (.ok .next, { s.withWords .io io with vars }) := by
  have hlen : (resultNames sig.results).length = sig.results.length := List.length_mapIdx
  obtain ⟨vars, hassign, hstand, hother⟩ := outcome_assignAll (s := s) (nodup_resultNames sig.results)
    (hlen.trans hfits.length_eq) fun n hn => by
      obtain ⟨i, hi, rfl⟩ := List.mem_mapIdx.mp hn
      rw [hvars]
      exact Execution.lookup_frame_local (f := directEntry env.exe.layout name callee sig) []
        (v := ⟨resultName i, .carrier env.exe.layout sig.results[i]⟩)
        (List.mem_mapIdx.mpr ⟨i, hi, rfl⟩)
  have hs' : Grounded { s with vars } := by
    refine ⟨hs.toBased.of_sizes rfl rfl fun _ => rfl, fun v hv => ?_⟩
    refine (hother v.name fun hmem => ?_).trans (hs.hidden v hv)
    obtain ⟨i, heq⟩ := mem_resultNames hmem
    exact resultName_not_mem i (List.mem_map.mpr ⟨v, hv, heq⟩)
  obtain ⟨io, hio, hstores⟩ := meaning_ioStores hs' hknown hfits.length_eq hstand
    (List.nil_append _).symm List.length_nil (by rw [Array.length_toList]; exact hroom)
  have hwords := Execution.length_storedAll (l := env.exe.layout) hfits.length_eq
  rw [List.nil_append] at hio
  refine ⟨vars, io, ?_, ?_, hassign, hstores⟩
  · rw [← Array.length_toList, hio, List.length_append, hwords, List.length_drop, Array.length_toList]
    exact Nat.add_sub_cancel' hroom
  · rw [hio, ← hwords, List.take_left]

/-- A direct entry ends as the call of its function does. -/
theorem callMeaning_directEntry (hx : Execution.Runnable env.exe)
    (hform : IsDirectForm env p oracle target sig fn)
    (hanswers : ∀ r shared', oracle (.call target) data shared = some (r, shared') →
      AnswerFits p env.exe.layout sig.results r shared')
    (hfn : env.exe.module.function? callee = some fn) (hnotBlock : env.exe.blockNamed? callee = none)
    (hsized : ln.Sized env.exe) (haddressable : ∀ r, ln.Addressable r)
    (hparams : AllKnown sig.params) (hresults : AllKnown sig.results)
    (hdata : FitsAll env.exe.layout sig.params data)
    (hio : ln.io.toList = storedAll env.exe.layout sig.params data ++ stored)
    (hshared : p.GlobalsFit env.exe.layout shared.globals)
    (hglobals : ln.globals.toList = p.globalWords env.exe.layout shared.globals)
    (hroom : env.exe.layout.sizeOf sig.results ≤ (ln.words .io).size) (name : String) :
    Option.Rel (DirectEnds p env.exe.layout sig.results ln)
      (callMeaning env (directEntry env.exe.layout name callee sig) [] ln.entering)
      (oracle (.call target) data shared) := by
  generalize hf : directEntry env.exe.layout name callee sig = f
  have hbody := body_directEntry env.exe.layout name callee sig
  have hhidden := hidden_directEntry env.exe.layout name callee sig
  rw [hf] at hbody hhidden
  obtain ⟨found, hsetup, hbased⟩ := stmtMeaning_setup hx hsized haddressable
    (Execution.Exec.frame f [])
  have hs₀ : Grounded ⟨ln, Execution.Exec.frame f [], found⟩ := ⟨hbased, hhidden⟩
  have hheader : (ln.words .stack).size = LaneStack.headerWords + env.exe.stackWords.toNat :=
    hsized .stack
  obtain ⟨x, y, back, hwords⟩ := exists_header hheader
  obtain ⟨ws, hws, hclear⟩ := meaning_clearHeader env hs₀ hwords
    (.call callee ((ioArgsFrom env.exe.layout 0 sig.params).map (·.2)) (resultNames sig.results)
      :: ioStores env.exe.layout 0 (resultNames sig.results) sig.results)
  have hsize : ws.size = (ln.words .stack).size := by
    rw [← Array.length_toList, ← Array.length_toList, hws, hwords]
    rfl
  have hs₁ := hs₀.withWords (r := .stack) hsize
  generalize hs : Execution.State.withWords ⟨ln, Execution.Exec.frame f [], found⟩ .stack ws = s₁
    at hs₁ hclear
  have hlane : s₁.lane = ln.withWords .stack ws := by rw [← hs]; rfl
  have hvars : s₁.vars = Execution.Exec.frame f [] := by rw [← hs]; rfl
  have hkin : ln.Kin s₁.lane := by
    rw [hlane]
    exact (Lane.Kin.refl ln).withWords (r := .stack) hsize
  have hglobals' : s₁.lane.globals.toList = p.globalWords env.exe.layout shared.globals := by
    rw [hlane]
    exact hglobals
  have hio' : (s₁.lane.words .io).toList
      = [] ++ storedAll env.exe.layout sig.params data ++ stored := by
    rw [hlane]
    exact hio
  have hargs := evalAll_ioArgs hs₁ hparams hdata hio' List.length_nil
  have hbefore : Execution.Exec.outcome (Execution.beforeCall env callee) s₁ = some (.ok (), s₁) := by
    rw [Execution.beforeCall, hnotBlock]
    rfl
  have hrel := hform data shared s₁ hdata hshared ⟨hs₁.globals, hs₁.addressable .globals⟩ hglobals'
  have hrun : callMeaning env f [] ln.entering
      = (stmtMeaning env (.call callee ((ioArgsFrom env.exe.layout 0 sig.params).map (·.2))
          (resultNames sig.results)) s₁).bind (Execution.andThen fun flow s' =>
        (Execution.onNext (meaning env (ioStores env.exe.layout 0 (resultNames sig.results) sig.results))
          flow s').bind (Execution.andThen fun flow s' =>
            Execution.Exec.outcome (Execution.Exec.resultsOf f flow) { s' with vars := [] })) := by
    rw [Execution.callMeaning_eq (by rw [← hf]; rfl), hbody]
    change (meaning env _ ⟨ln, Execution.Exec.frame f [], Execution.unset⟩).bind _ = _
    rw [Execution.meaning_cons_next hsetup, hclear, Execution.meaning_cons, Option.bind_assoc]
    refine congrArg _ (funext fun r => ?_)
    obtain ⟨r, s'⟩ := r
    cases r <;> rfl
  rw [hrun, Execution.stmtMeaning_call hfn hbefore hargs]
  generalize callMeaning env fn data s₁ = a at hrel
  generalize hanswer : oracle (.call target) data shared = b at hrel
  cases hrel with
  | none => exact .none
  | @some a b hends =>
      obtain ⟨r, s₂⟩ := a
      obtain ⟨r', shared'⟩ := b
      cases r with
      | error e =>
          cases r' with
          | ok results => cases e <;> exact hends.elim
          | error e' =>
              cases e with
              | abort e => cases e' <;> exact hends.elim
              | outOfFuel => cases e' <;> exact hends.elim
              | trap c =>
                  cases e' with
                  | stuck => exact hends.elim
                  | hostFailed func e => exact hends.elim
                  | trap c' =>
                      obtain ⟨rfl, gs, hgs, htrapped⟩ := hends
                      refine .some ⟨rfl, ?_⟩
                      rw [htrapped]
                      refine (hkin.withWords (r := .globals) ?_).trapped c
                      change gs.size = s₁.lane.globals.size
                      rw [← Array.length_toList, ← Array.length_toList, hgs, hglobals']
                      exact length_globalWords (hanswers _ _ hanswer).2 hshared
      | ok results =>
          cases r' with
          | error e => exact hends.elim
          | ok results' =>
              obtain ⟨rfl, gs, hgs, hgwords, rfl⟩ := hends
              obtain ⟨hfits, hshared'⟩ := hanswers _ _ hanswer
              have hgsize : gs.size = (s₁.lane.words .globals).size := hgs
              have hkin' : ln.Kin (s₁.withWords .globals gs).lane := hkin.withWords hgsize
              have hframe : (s₁.withWords .globals gs).vars
                  = Execution.Exec.frame (directEntry env.exe.layout name callee sig) [] := by
                rw [hf]
                exact hvars
              obtain ⟨vars, io, hiosize, htaken, hassign, hstores⟩ := meaning_results env
                (hs₁.withWords hgsize) hframe hresults hfits (by rw [hkin'.sizes]; exact hroom)
              have hdone (s : Execution.State) :
                  Execution.Exec.outcome (Execution.Exec.resultsOf f .next) s = some (.ok [], s) := by
                rw [Execution.Exec.resultsOf, ← hf]
                rfl
              have hlength : results.length = (resultNames sig.results).length :=
                hfits.length_eq.symm.trans List.length_mapIdx.symm
              rw [Option.bind_some]
              dsimp only [Execution.andThen]
              rw [if_pos hlength, hassign, Option.bind_some]
              dsimp only [Execution.andThen, Option.bind_some, Execution.onNext]
              rw [hstores, Option.bind_some]
              dsimp only [Execution.andThen]
              rw [hdone]
              refine .some ⟨hkin'.withWords (r := .io) hiosize, ⟨back, ?_⟩, htaken, hgwords⟩
              rw [← hs]
              exact hws

end Entry

end Structured

end WasmShader
