import WasmShader.Proofs.Yield

/-!
# Suspension

A lane that waits for the host can be left alone, asked again, or saved and restored, and none of it
makes a difference: the words of the lane, its entry point and its number of steps are all that
matters for what comes after.
-/

namespace WasmShader

namespace Execution

open Emit Compile

/-! ## Lanes of an executor -/

/-- What operations of an executor make of a lane. -/
inductive Goes (x : Executable) : Lane → Lane → Prop
  | refl (ln : Lane) : Goes x ln ln
  | invoke {ln ln₁ ln₂ : Lane} {env : Env} {fuel : Nat} {symbol : Symbol} {args : List Value}
      {r : Except Abort Outcome} : Goes x ln ln₁ → env.exe = x →
      ln₁.invoke env fuel symbol args = some (r, ln₂) → Goes x ln ln₂
  | resume {ln ln₁ ln₂ : Lane} {env : Env} {fuel : Nat} {r : Except Abort Outcome} :
      Goes x ln ln₁ → env.exe = x → ln₁.resume env fuel = some (r, ln₂) → Goes x ln ln₂
  | complete {ln ln₁ : Lane} (p : Pending) (results : List Value) :
      Goes x ln ln₁ → Goes x ln (ln₁.complete x p results).2
  | restore {ln ln₁ saved : Lane} {i : Nat} :
      Goes x ln ln₁ → Goes x (Lane.new x i) saved → Goes x ln (ln₁.restore saved)

/-- The lane is one of an executor that has done some operations. -/
def Reached (x : Executable) (ln : Lane) : Prop := ∃ i, Goes x (Lane.new x i) ln

/-- The lane is stopped at a request to the host. -/
inductive Yielded (x : Executable) : Lane → Pending → Nat → Prop
  | invoke {ln ln' : Lane} {env : Env} {fuel : Nat} {symbol : Symbol} {args : List Value}
      {request : Pending} {steps : Nat} : Reached x ln → env.exe = x →
      ln.invoke env fuel symbol args = some (.ok (.yielded request steps), ln') →
      Yielded x ln' request steps
  | resume {ln ln' : Lane} {env : Env} {fuel : Nat} {request : Pending} {steps : Nat} :
      Reached x ln → env.exe = x →
      ln.resume env fuel = some (.ok (.yielded request steps), ln') → Yielded x ln' request steps
  | restore {ln saved : Lane} {request : Pending} {steps : Nat} : Reached x ln →
      Yielded x saved request steps → ln.index = saved.index →
      Yielded x (ln.restore saved) request steps

section Lanes

variable {x : Executable} {ln ln' : Lane} {env : Env} {request : Pending} {steps : Nat}

theorem Lane.sized_new (x : Executable) (i : Nat) : (Lane.new x i).Sized x := by
  intro r
  cases r with
  | stack => exact Array.size_replicate
  | io => exact Array.size_replicate
  | globals =>
      change ((x.globalInit.take _ ++ List.replicate _ 0).toArray).size = x.globalWords.toNat
      rw [List.size_toArray, List.length_append, List.length_take, List.length_replicate]
      omega

theorem Goes.sized (hx : Runnable x) (h : Goes x ln ln') (hsized : ln.Sized x) :
    ln'.Sized x ∧ ln'.index = ln.index := by
  induction h with
  | refl => exact ⟨hsized, rfl⟩
  | @invoke _ _ _ _ fuel symbol args _ _ henv hop ih =>
      obtain ⟨hsized, hindex⟩ := ih hsized
      have hrel := (Mates.self hsized).invoke hx henv fuel symbol args
      rw [hop] at hrel
      cases hrel with
      | some hagree => exact ⟨hagree.mates.sized, hagree.index.trans hindex⟩
  | @resume _ _ _ _ fuel _ _ henv hop ih =>
      obtain ⟨hsized, hindex⟩ := ih hsized
      have hrel := (Mates.self hsized).resume hx henv fuel
      rw [hop] at hrel
      cases hrel with
      | some hagree => exact ⟨hagree.mates.sized, hagree.index.trans hindex⟩
  | complete p results _ ih =>
      obtain ⟨hsized, hindex⟩ := ih hsized
      have hagree := (Mates.self hsized).complete p results
      exact ⟨hagree.mates.sized, hagree.index.trans hindex⟩
  | restore _ _ ih ihSaved =>
      obtain ⟨hsized, hindex⟩ := ih hsized
      obtain ⟨hsaved, -⟩ := ihSaved (Lane.sized_new x _)
      rw [hsized.restore hsaved]
      exact ⟨hsaved, hindex⟩

theorem Reached.sized (hx : Runnable x) (h : Reached x ln) : ln.Sized x :=
  h.elim fun _ hgoes => (hgoes.sized hx (Lane.sized_new x _)).1

/-- What is saved comes back, whatever was done in between. -/
theorem Goes.restore_eq (hx : Runnable x) (h : Goes x ln ln') (hsized : ln.Sized x) :
    ln'.restore ln = { ln with trace := ln'.trace } := by
  obtain ⟨hsized', hindex⟩ := h.sized hx hsized
  rw [hsized'.restore hsized, hindex]

/-! ## Yields -/

theorem atYield_of_invoke (hx : Runnable env.exe) (hsized : ln.Sized env.exe) {n : Nat}
    {symbol : Symbol} {args : List Value}
    (h : ln.invoke env n symbol args = some (.ok (.yielded request steps), ln')) :
    AtYield env.exe ln' request steps := by
  unfold Lane.invoke at h
  split at h
  · cases h
  · next e he =>
    split at h
    · cases h
    · dsimp only at h
      split at h
      · cases h
      · next words hwords =>
        obtain ⟨f, hf, hcode⟩ := hx.entry e (List.mem_of_find?_eq_some he)
        let io := Lane.overwrite (Array.replicate ln.io.size 0) words.toArray
        have hio : io.size = ln.io.size := (Lane.size_overwrite ..).trans Array.size_replicate
        have hstarted : ({ ln with io, entry := some e, steps := 0 } : Lane).Sized env.exe :=
          ((Mates.self hsized).withWords (r := .io) hio).sized
        exact atYield_of_enter hx hstarted rfl hf (.inr ⟨e, hcode⟩) h

theorem atYield_of_resume (hx : Runnable env.exe) (hsized : ln.Sized env.exe) {n : Nat}
    (h : ln.resume env n = some (.ok (.yielded request steps), ln')) :
    AtYield env.exe ln' request steps := by
  unfold Lane.resume at h
  split at h
  · next hsuspended =>
    have hentry := (Bool.and_eq_true_iff.mp hsuspended).1
    cases hf : env.exe.module.function? resumeName with
    | none =>
        rw [Lane.enter, hf] at h
        cases h
    | some f =>
        exact atYield_of_enter hx hsized hentry hf (.inl ⟨hx.resume f hf, rfl⟩) h
  · cases h

/-- What is recorded of blocks does not count. -/
theorem AtYield.withTrace (h : AtYield x ln request steps) (trace : List (BlockId × UInt32)) :
    AtYield x { ln with trace } request steps where
  sized := h.sized
  entry := h.entry
  trap := h.trap
  pending := h.pending
  steps := h.steps
  poll := h.poll
  resume := h.resume

theorem Yielded.atYield (hx : Runnable x) (h : Yielded x ln request steps) :
    AtYield x ln request steps := by
  induction h with
  | invoke hreached henv hop =>
      subst henv
      exact atYield_of_invoke hx (hreached.sized hx) hop
  | resume hreached henv hop =>
      subst henv
      exact atYield_of_resume hx (hreached.sized hx) hop
  | restore hreached _ hindex ih =>
      rw [(hreached.sized hx).restore ih.sized, hindex]
      exact ih.withTrace _

/-! ## Detours -/

/-- What can be done at a yield without an answer to the request: nothing; the lane is asked again;
or its state is saved, anything is done with it, and the state is restored. -/
inductive Detour (x : Executable) (ln : Lane) : Lane → Prop
  | none : Detour x ln ln
  | resume {ln₁ ln₂ : Lane} {env : Env} {fuel : Nat} {r : Except Abort Outcome} :
      Detour x ln ln₁ → env.exe = x → ln₁.resume env fuel = some (r, ln₂) → Detour x ln ln₂
  | excursion {ln₁ ln₂ : Lane} : Detour x ln ln₁ → Goes x ln₁ ln₂ → Detour x ln (ln₂.restore ln₁)

/-- More fuel keeps what a suspended invocation comes to. -/
theorem resume_more (hx : Runnable env.exe) {n : Nat} {y : Except Abort Outcome × Lane}
    (h : ln.resume env n = some y) (m : Nat) : ln.resume env (n + m) = some y := by
  unfold Lane.resume at h ⊢
  split at h
  · next hsuspended =>
    rw [if_pos hsuspended]
    cases hf : env.exe.module.function? resumeName with
    | none =>
        rw [Lane.enter, hf] at h ⊢
        exact h
    | some f =>
        rw [Lane.enter_eq hx hf] at h ⊢
        obtain ⟨r, hr, hleave⟩ := Option.bind_eq_some_iff.mp h
        have hmore := (Exec.growing_call env f []).le (Nat.le_add_right n m) _ _ hr
        rw [hmore]
        exact hleave
  · next hsuspended =>
    rw [if_neg hsuspended]
    exact h

/-- Behind a detour the lane is at the yield as before. -/
theorem Detour.eq (hx : Runnable x) (h : AtYield x ln request steps) (hdetour : Detour x ln ln') :
    ∃ trace, ln' = { ln with trace } := by
  induction hdetour with
  | none => exact ⟨ln.trace, rfl⟩
  | @resume _ _ _ fuel _ _ henv hop ih =>
      obtain ⟨trace, rfl⟩ := ih
      subst henv
      have hagain := (h.withTrace trace).resume_eq hx fuel
      rw [resume_more hx hop 16] at hagain
      cases hagain
      exact ⟨trace, rfl⟩
  | excursion _ hgoes ih =>
      obtain ⟨trace, rfl⟩ := ih
      exact ⟨_, hgoes.restore_eq hx h.sized⟩

theorem Goes.trans {ln₁ ln₂ ln₃ : Lane} (h : Goes x ln₁ ln₂) (h' : Goes x ln₂ ln₃) :
    Goes x ln₁ ln₃ := by
  induction h' with
  | refl => exact h
  | invoke _ henv hop ih => exact (ih h).invoke henv hop
  | resume _ henv hop ih => exact (ih h).resume henv hop
  | complete p results _ ih => exact (ih h).complete p results
  | restore _ hsaved ih _ => exact (ih h).restore hsaved

theorem Reached.goes (h : Reached x ln) (hgoes : Goes x ln ln') : Reached x ln' :=
  h.imp fun _ hstart => hstart.trans hgoes

theorem Yielded.reached (h : Yielded x ln request steps) : Reached x ln := by
  induction h with
  | invoke hreached henv hop => exact hreached.goes ((Goes.refl _).invoke henv hop)
  | resume hreached henv hop => exact hreached.goes ((Goes.refl _).resume henv hop)
  | restore hreached _ _ ih =>
      obtain ⟨i, hsaved⟩ := ih
      exact hreached.goes ((Goes.refl _).restore hsaved)

theorem Detour.reached (h : Detour x ln ln') (hreached : Reached x ln) : Reached x ln' := by
  induction h with
  | none => exact hreached
  | resume _ henv hop ih => exact ih.goes ((Goes.refl _).resume henv hop)
  | excursion _ hgoes ih =>
      obtain ⟨i, hstart⟩ := ih
      exact ⟨i, (hstart.trans hgoes).restore hstart⟩

/-- Answers the requests of an invocation until it ends, with a detour at each yield; they are
counted from `k` on. -/
def Lane.serveVia {σ : Type} (env : Env) (host? : Option (Host σ)) (name : String)
    (detour : Nat → Lane → Lane) : (fuel k : Nat) → Except Abort Outcome → Lane → σ →
    Option (Except Abort (List Value) × Lane × σ)
  | 0, _, _, _, _ => none
  | _ + 1, _, .error e, ln, h => some (.error e, ln, h)
  | _ + 1, _, .ok (.finished values _), ln, h => some (.ok values, ln, h)
  | fuel + 1, k, .ok (.yielded p _), ln, h =>
    let ln := detour k ln
    match host? with
    | none => some (Failure.raise (noHost name p), ln, h)
    | some host =>
      match host.call h ln.index p.func p.args with
      | (.error e, h) =>
        some (Failure.raise (.wrap .runtime .host e p.func.name), ln.abandon, h)
      | (.ok results, h) =>
        match ln.complete env.exe p results with
        | (.error e, ln) => some (.error e, ln, h)
        | (.ok _, ln) => do
          let (outcome, ln) ← ln.resume env fuel
          serveVia env host? name detour fuel (k + 1) outcome ln h

/-- Invokes an export and answers its requests until it ends, with a detour at each yield. -/
def Lane.runVia {σ : Type} (env : Env) (host? : Option (Host σ)) (detour : Nat → Lane → Lane)
    (fuel : Nat) (ln : Lane) (symbol : Symbol) (args : List Value) (h : σ) :
    Option (Except Abort (List Value) × Lane × σ) := do
  let (outcome, ln) ← ln.invoke env fuel symbol args
  serveVia env host? symbol.text detour fuel 0 outcome ln h

/-- Two runs came to the same, for the lane and for the host. -/
structure RanAlike {σ : Type} (x : Executable) (ln ln' : Lane)
    (z z' : Except Abort (List Value) × Lane × σ) : Prop where
  agree : Agree x ln ln' (z.1, z.2.1) (z'.1, z'.2.1)
  host : z.2.2 = z'.2.2

theorem Alike.cases {α : Type} {r r' : Except Abort α} (h : Alike r r') :
    (∃ a, r = .ok a ∧ r' = .ok a) ∨ ∃ e e', r = .error e ∧ r' = .error e' ∧ e.outline = e'.outline := by
  cases r with
  | error e =>
      cases r' with
      | error e' => exact .inr ⟨e, e', rfl, rfl, by injection h⟩
      | ok a => cases h
  | ok a =>
      cases r' with
      | error e' => cases h
      | ok a' =>
          cases h
          exact .inl ⟨a, rfl, rfl⟩

theorem Mates.withTrace (h : Mates x ln ln') (trace : List (BlockId × UInt32)) :
    Mates x ln { ln' with trace } :=
  ⟨h.sized, h.words, h.entry, h.steps, h.level⟩

theorem Mates.sized' (h : Mates x ln ln') : ln'.Sized x := fun r => by rw [h.words, h.sized]

/-- Detours at the yields in `P` change nothing but the record of the blocks, and the next yield
behind one is in `P` again. -/
structure Harmless (x : Executable) (detour : Nat → Lane → Lane)
    (P : Lane → Pending → Nat → Prop) : Prop where
  stays : ∀ k ln request steps, P ln request steps → ∃ trace, detour k ln = { ln with trace }
  again : ∀ k ln request steps results env fuel request' steps' ln', P ln request steps →
    env.exe = x → ((detour k ln).complete x request results).2.resume env fuel
      = some (.ok (.yielded request' steps'), ln') → P ln' request' steps'

/-- What the executor knows as detours is harmless. -/
theorem Detour.harmless (hx : Runnable x) {detour : Nat → Lane → Lane}
    (hdetour : ∀ k ln request steps, Yielded x ln request steps → Detour x ln (detour k ln)) :
    Harmless x detour (Yielded x) where
  stays k ln _ _ hyield := (hdetour k ln _ _ hyield).eq hx (hyield.atYield hx)
  again k ln request _ results _ _ _ _ _ hyield henv hop :=
    .resume (((hdetour k ln _ _ hyield).reached hyield.reached).goes
      ((Goes.refl _).complete request results)) henv hop

section Hosts

variable {σ τ : Type} {R : σ → τ → Prop}

/-- The hosts answer the two lanes alike, in states that go together, and these still do. -/
def HostsAgree (R : σ → τ → Prop) (i i' : Nat) : Option (Host σ) → Option (Host τ) → Prop :=
  Option.Rel fun host host' => ∀ h h', R h h' → ∀ f args,
    (host.call h i f args).1 = (host'.call h' i' f args).1
      ∧ R (host.call h i f args).2 (host'.call h' i' f args).2

/-- Two runs came to the same for the lanes, and left their hosts in states that go together. -/
structure RanWith (R : σ → τ → Prop) (x : Executable) (ln ln' : Lane)
    (z : Except Abort (List Value) × Lane × σ) (z' : Except Abort (List Value) × Lane × τ) :
    Prop where
  agree : Agree x ln ln' (z.1, z.2.1) (z'.1, z'.2.1)
  hosts : R z.2.2 z'.2.2

variable {host? : Option (Host σ)} {host'? : Option (Host τ)} {i i' : Nat}
  {detour : Nat → Lane → Lane} {P : Lane → Pending → Nat → Prop}

/-- Requests are answered alike on mates, with and without detours, by hosts that answer alike. -/
theorem Mates.serveVia (hx : Runnable x) (henv : env.exe = x) (hhosts : HostsAgree R i i' host? host'?)
    (hdetour : Harmless x detour P) (name : String) (fuel k : Nat) {r r' : Except Abort Outcome}
    (hr : Alike r r') (hmates : Mates x ln ln') (hi : ln.index = i) (hi' : ln'.index = i')
    (hyield : ∀ request steps, r' = .ok (.yielded request steps) → P ln' request steps) {h : σ}
    {h' : τ} (hR : R h h') :
    Option.Rel (RanWith R x ln ln') (ln.serve env host? name fuel r h)
      (ln'.serveVia env host'? name detour fuel k r' h') := by
  induction fuel generalizing k r r' ln ln' h h' with
  | zero => exact .none
  | succ fuel ih =>
      rcases hr.cases with ⟨a, rfl, rfl⟩ | ⟨e, e', rfl, rfl, houtline⟩
      · cases a with
        | finished values steps => exact .some ⟨hmates.agree (.refl _), hR⟩
        | yielded p steps =>
            have hat := hyield p steps rfl
            have hagain := hdetour.again k ln' p steps
            obtain ⟨trace, htrace⟩ := hdetour.stays k ln' p steps hat
            rw [htrace] at hagain
            have hmates := hmates.withTrace trace
            unfold Lane.serve Lane.serveVia
            dsimp only
            rw [htrace]
            cases hhosts with
            | none => exact .some ⟨⟨.refl _, hmates, rfl, rfl⟩, hR⟩
            | @some host host' hanswers =>
                have hcall := hanswers h h' hR p.func p.args
                rw [← hi, ← hi'] at hcall
                dsimp only
                generalize host.call h ln.index p.func p.args = y at hcall ⊢
                generalize host'.call h' ln'.index p.func p.args = y' at hcall ⊢
                obtain ⟨answer, h₁⟩ := y
                obtain ⟨answer', h₁'⟩ := y'
                obtain ⟨heq, hR⟩ := hcall
                dsimp only at heq hR
                subst heq
                cases answer with
                | error e => exact .some ⟨⟨.refl _, hmates.abandon, rfl, rfl⟩, hR⟩
                | ok results =>
                    have hcomplete := hmates.complete p results
                    have hnext := hagain results env fuel
                    rw [← henv] at hcomplete hnext
                    dsimp only
                    generalize ln.complete env.exe p results = y at hcomplete ⊢
                    generalize Lane.complete env.exe { ln' with trace } p results = y'
                      at hcomplete hnext ⊢
                    obtain ⟨c, b⟩ := y
                    obtain ⟨c', b'⟩ := y'
                    obtain ⟨hc, hb, hindex, hindex'⟩ := hcomplete
                    dsimp only at hc hb hindex hindex' hnext ⊢
                    rcases hc.cases with ⟨u, rfl, rfl⟩ | ⟨e, e', rfl, rfl, houtline⟩
                    · subst henv
                      refine ((hb.resume hx rfl fuel).and_right fun y hy => hy).bind ?_
                      rintro ⟨o, a⟩ ⟨o', a'⟩ ⟨⟨ho, ha, hai, hai'⟩, hop⟩
                      refine (ih (k + 1) ho ha ((hai.trans hindex).trans hi)
                        ((hai'.trans hindex').trans hi')
                        (fun request steps ho' => hnext request steps a' hat rfl (ho' ▸ hop)) hR).mono ?_
                      rintro z z' ⟨⟨hz, hmates, hzi, hzi'⟩, hhost⟩
                      exact ⟨⟨hz, hmates, (hzi.trans hai).trans hindex,
                        (hzi'.trans hai').trans hindex'⟩, hhost⟩
                    · exact .some ⟨⟨alike_error houtline, henv ▸ hb, hindex, hindex'⟩, hR⟩
      · exact .some ⟨hmates.agree (alike_error houtline), hR⟩

/-- An export runs alike on mates, with and without detours, if the hosts answer alike. -/
theorem Mates.runVia (hx : Runnable x) (henv : env.exe = x)
    (hhosts : HostsAgree R ln.index ln'.index host? host'?) (hdetour : Harmless x detour P)
    (hmates : Mates x ln ln') (fuel : Nat) {symbol : Symbol} {args : List Value}
    (hyield : ∀ request steps a, ln'.invoke env fuel symbol args
      = some (.ok (.yielded request steps), a) → P a request steps) {h : σ} {h' : τ} (hR : R h h') :
    Option.Rel (RanWith R x ln ln') (ln.run env host? fuel symbol args h)
      (ln'.runVia env host'? detour fuel symbol args h') := by
  refine ((hmates.invoke hx henv fuel symbol args).and_right fun y hy => hy).bind ?_
  rintro ⟨o, a⟩ ⟨o', a'⟩ ⟨⟨ho, ha, hai, hai'⟩, hop⟩
  refine (ha.serveVia hx henv hhosts hdetour symbol.text fuel 0 ho hai hai'
    (fun request steps ho' => hyield request steps a' (ho' ▸ hop)) hR).mono ?_
  rintro z z' ⟨⟨hz, hmates, hzi, hzi'⟩, hhost⟩
  exact ⟨⟨hz, hmates, hzi.trans hai, hzi'.trans hai'⟩, hhost⟩

end Hosts

theorem hostsAgree_refl {σ : Type} (host? : Option (Host σ)) (i : Nat) :
    HostsAgree Eq i i host? host? := by
  cases host? with
  | none => exact .none
  | some host =>
      refine .some ?_
      rintro h _ rfl f args
      exact ⟨rfl, rfl⟩

/-- Nothing that is done at a yield, short of an answer, makes a difference. Asked again the lane
yields the same, and nothing about it changes; what is saved of a lane comes back, but for the record
of the blocks that ran; and a run with detours at its yields is as it is without them, for the lane
and for the host. -/
structure SuspensionTransparent (x : Executable) : Prop where
  resume : ∀ ln request steps, Yielded x ln request steps → ∀ env fuel, env.exe = x → 16 ≤ fuel →
    ln.resume env fuel = some (.ok (.yielded request steps), ln)
  restore : ∀ ln ln', Reached x ln → Goes x ln ln' → ln'.restore ln = { ln with trace := ln'.trace }
  run : ∀ (detour : Nat → Lane → Lane),
    (∀ k ln request steps, Yielded x ln request steps → Detour x ln (detour k ln)) →
    ∀ ln, Reached x ln → ∀ {σ : Type} env (host? : Option (Host σ)) fuel symbol args h, env.exe = x →
      Option.Rel (RanAlike x ln ln) (ln.run env host? fuel symbol args h)
        (ln.runVia env host? detour fuel symbol args h)

theorem Runnable.suspensionTransparent (hx : Runnable x) : SuspensionTransparent x where
  resume ln request steps hyield env fuel henv hfuel := by
    obtain ⟨n, rfl⟩ := Nat.exists_eq_add_of_le' hfuel
    subst henv
    exact (hyield.atYield hx).resume_eq hx n
  restore ln ln' hreached hgoes := hgoes.restore_eq hx (hreached.sized hx)
  run detour hdetour ln hreached _ env host? fuel symbol args h henv :=
    ((Mates.self (hreached.sized hx)).runVia hx henv (hostsAgree_refl host? _)
      (Detour.harmless hx hdetour) fuel
      (fun _ _ _ hop => .invoke hreached henv hop) rfl).mono fun _ _ hran => ⟨hran.agree, hran.hosts⟩

end Lanes

end Execution

/-! ## Compiled modules -/

namespace Compile

open Execution

variable {config : Config} {p : Program} {out : Compiled}

/-- Suspension is transparent in a compiled module. -/
theorem compile_suspends_transparently {m : Binary.Module} (hread : Program.ofModule m = .ok p)
    (h : compile config p = .ok out) : SuspensionTransparent out.toExecutable :=
  (runnable_of_compile (Program.formed_of_ofModule hread) h).suspensionTransparent

/-! A function that asks for the size of the memory, under the name `f`. -/

def question : Binary.Module where
  types := [⟨[], [0x7f]⟩]
  funcs := [0]
  exports := [⟨[0x66], Binary.Export.funcKind, 0⟩]
  code := [⟨[], [0x3f, 0, 0x0b]⟩]

def questionProgram : Program := (Program.ofModule question).toOption.getD default

def questionGraph : CallGraph := (CallGraph.build questionProgram).toOption.getD default

/-- A stack of a few words is enough for the question. -/
def narrow : Config := { stackWords := 8 }

def questionCode : Except Abort Compiled := do
  let skipped := skippedFunctions questionGraph []
  let (pl, hosts) ← plan narrow.withDefaults questionProgram questionGraph.analyze
    (skipped.map (·.1))
  let code ← pl.module
  return assemble narrow.withDefaults questionGraph skipped pl hosts code

/-- No step on the way to the code of the module fails. -/
theorem coded_question : (Program.ofModule question).isOk = true
    ∧ unsupportedFunctions narrow.withDefaults questionProgram = .ok []
    ∧ (CallGraph.build questionProgram).isOk = true
    ∧ (Compile.plan narrow.withDefaults questionProgram questionGraph.analyze
      ((skippedFunctions questionGraph []).map (·.1))).isOk = true
    ∧ questionCode.isOk = true := by
  decide +kernel

theorem read_question : Program.ofModule question = .ok questionProgram :=
  eq_ok_getD coded_question.1 default

theorem unsupported_question :
    unsupportedFunctions narrow.withDefaults questionProgram = .ok [] :=
  coded_question.2.1

theorem build_question : CallGraph.build questionProgram = .ok questionGraph :=
  eq_ok_getD coded_question.2.2.1 default

theorem namesDiffer_question {c : Config} : NamesDiffer c questionProgram :=
  namesDiffer_of_exports (by decide +kernel)

theorem compile_question : ∃ out, compile narrow questionProgram = .ok out
    ∧ questionCode = .ok out := by
  have hp := Program.formed_of_ofModule read_question
  obtain ⟨out, hout, hskipped⟩ := compile_isOk hp namesDiffer_question unsupported_question
    build_question coded_question.2.2.2.1
  obtain ⟨out', hout'⟩ := exists_of_isOk (x := questionCode) coded_question.2.2.2.2
  have hcode := hout'
  rw [questionCode] at hcode
  obtain ⟨⟨pl, hosts⟩, hpl, hcode⟩ := Program.bind_eq_ok hcode
  obtain ⟨code, hmodule, hcode⟩ := Program.bind_eq_ok hcode
  cases hcode
  have heq := compile_eq_validated hp unsupported_question build_question hpl hmodule
  rw [hout, validated] at heq
  obtain ⟨u, -, hvalid⟩ := Program.bind_eq_ok heq.symm
  cases hvalid
  exact ⟨_, hout, hout'⟩

/-- The first run of the function, up to the question. -/
def questionRun (out : Compiled) : OnLane Outcome :=
  (Lane.new out.toExecutable 0).invoke { exe := out.toExecutable } 64 (.ofText "f") []

def waits : Outcome → Bool
  | .yielded _ _ => true
  | .finished _ _ => false

theorem yielded_question {out : Compiled} (hcode : questionCode = .ok out) :
    ∃ ln request steps, Yielded out.toExecutable ln request steps := by
  have hyields : (questionCode.toOption.bind questionRun).any (fun y => y.1.toOption.any waits)
      = true := by
    decide +kernel
  rw [hcode] at hyields
  obtain ⟨⟨r, ln⟩, hrun, hr⟩ := (Option.any_eq_true ..).mp hyields
  cases r with
  | error e => cases hr
  | ok outcome =>
      cases outcome with
      | finished values steps => cases hr
      | yielded request steps => exact ⟨ln, _, _, .invoke ⟨0, .refl _⟩ rfl hrun⟩

/-- The theorem at a program that asks the host. -/
theorem compile_suspends_transparently_question :
    Program.ofModule question = .ok questionProgram
      ∧ ∃ out, compile narrow questionProgram = .ok out
        ∧ SuspensionTransparent out.toExecutable
        ∧ ∃ ln request steps, Yielded out.toExecutable ln request steps := by
  obtain ⟨out, hout, hcode⟩ := compile_question
  exact ⟨read_question, out, hout, compile_suspends_transparently read_question hout,
    yielded_question hcode⟩

end Compile

end WasmShader
