import WasmShader.Proofs.EvalTyping
import WasmShader.Proofs.GlobalWords

/-!
# Evaluation of whole programs

`World.reply` evaluates the calls of a program by evaluating the bodies of the callees, to
any depth. It is the least such evaluation: a call that never ends has no reply. More
answers to the calls of a body can only give it more ends, which is why there is one.

In a checked program every reply has the declared types, provided that the host's have.
-/

namespace WasmShader

open Execution (Datum FitsAll)

/-! ## Globals in words -/

/-- The globals that words make up; immutable ones are not in the words. -/
def readGlobals (l : Layout) : List Global → List UInt32 → List Datum
  | [], _ => []
  | g :: gs, words =>
    if g.isMutable then
      .ofWords (Shader.Ty.carrier l g.type) (words.take (l.words g.type))
        :: readGlobals l gs (words.drop (l.words g.type))
    else .ofValue l g.init :: readGlobals l gs words

/-- The globals of a program that a lane's words make up. -/
def Program.readGlobals (p : Program) (l : Layout) (words : List UInt32) : List Datum :=
  WasmShader.readGlobals l p.globals words

/-- Words of the right number are those of the globals they make up, which fit. -/
theorem readGlobals_spec {l : Layout} {globals : List Global} (words : List UInt32)
    (hinit : ∀ g ∈ globals, g.init.type = g.type)
    (hlen : words.length = l.sizeOf ((globals.filter (·.isMutable)).map (·.type))) :
    List.Forall₂ (fun (g : Global) d =>
        d.Fits l g.type ∧ (g.isMutable = false → d = .ofValue l g.init)) globals
        (readGlobals l globals words)
      ∧ wordsOfGlobals l globals (readGlobals l globals words) = words := by
  induction globals generalizing words with
  | nil => exact ⟨.nil, (List.length_eq_zero_iff.mp hlen).symm⟩
  | cons g gs ih =>
      have hgs := fun g' hg' => hinit g' (List.mem_cons_of_mem _ hg')
      rw [readGlobals]
      cases hm : g.isMutable with
      | false =>
          rw [List.filter_cons_of_neg (by rw [hm]; exact Bool.false_ne_true)] at hlen
          obtain ⟨hfits, hwords⟩ := ih _ hgs hlen
          rw [if_neg Bool.false_ne_true, wordsOfGlobals_cons, hm, if_neg Bool.false_ne_true,
            List.nil_append, hwords]
          have hfit := Datum.fits_ofValue l g.init
          rw [hinit g (List.mem_cons_self ..)] at hfit
          exact ⟨.cons ⟨hfit, fun _ => rfl⟩ hfits, rfl⟩
      | true =>
          rw [List.filter_cons_of_pos hm, List.map_cons, Layout.sizeOf_cons] at hlen
          have htake : (words.take (l.words g.type)).length = l.words g.type := by
            rw [List.length_take]; omega
          have hdrop : (words.drop (l.words g.type)).length
              = l.sizeOf ((gs.filter (·.isMutable)).map (·.type)) := by
            rw [List.length_drop]
            exact Nat.sub_eq_of_eq_add (hlen.trans (Nat.add_comm _ _))
          obtain ⟨hfits, hwords⟩ := ih _ hgs hdrop
          rw [if_pos rfl, wordsOfGlobals_cons, hm, if_pos rfl, hwords, Datum.stored_ofWords htake,
            List.take_append_drop]
          exact ⟨.cons ⟨Datum.fits_ofWords htake, fun h => by rw [hm] at h; cases h⟩ hfits, rfl⟩

namespace Structured

variable {σ α β : Type}

/-! ## More answers, more ends -/

/-- Whatever the first oracle answers, the second answers too. -/
def Oracle.Below (o o' : Oracle σ) : Prop :=
  ∀ r args shared x, o r args shared = some x → o' r args shared = some x

/-- Wherever the first evaluation ends, the second ends too. -/
def EvalBelow (x y : Eval σ α) : Prop := ∀ st r, x st = some r → y st = some r

theorem EvalBelow.refl (x : Eval σ α) : EvalBelow x x := fun _ _ h => h

theorem EvalBelow.bind {x y : Eval σ α} {k k' : α → Eval σ β} (h : EvalBelow x y)
    (hk : ∀ a, EvalBelow (k a) (k' a)) : EvalBelow (x >>= k) (y >>= k') := by
  intro st r hr
  rw [bind_apply] at hr ⊢
  obtain ⟨⟨ra, st'⟩, hra, hkr⟩ := Option.bind_eq_some_iff.mp hr
  rw [h st _ hra]
  cases ra with
  | ok a => exact hk a st' r hkr
  | error e => exact hkr

theorem EvalBelow.ite {c : Prop} [Decidable c] {x y x' y' : Eval σ α} (h : EvalBelow x y)
    (h' : EvalBelow x' y') : EvalBelow (if c then x else x') (if c then y else y') := by
  split
  · exact h
  · exact h'

section Below

variable {p : Program} {l : Layout} {o o' : Oracle σ}

theorem askTop_below (h : o.Below o') (r : Request) (n : Nat) (stack : List Datum) :
    EvalBelow (askTop o r n stack) (askTop o' r n stack) := by
  refine .bind (.refl _) fun (rest, args) => .bind ?_ fun _ => .refl _
  intro st x hx
  obtain ⟨y, hy, rfl⟩ := Option.map_eq_some_iff.mp hx
  exact Option.map_eq_some_iff.mpr ⟨y, h r args st.shared y hy, rfl⟩

theorem evalInstr_below (h : o.Below o') (i : Instr) (stack : List Datum) :
    EvalBelow (evalInstr p l o i stack) (evalInstr p l o' i stack) := by
  unfold evalInstr
  generalize i.operation = op
  generalize i.imm = imm
  dsimp only
  split
  all_goals first | exact .refl _ | exact askTop_below h _ _ _ | skip
  all_goals
    split
    · exact askTop_below h _ _ _
    · exact .refl _

theorem evalLoop_below {n : Nat} {body body' : List Datum → Eval σ Flow}
    (h : ∀ args, EvalBelow (body args) (body' args)) (args : List Datum) :
    EvalBelow (evalLoop n body args) (evalLoop n body' args) := by
  intro st r hr
  refine untilDone_below (fun (args, st) r hr => ?_) hr
  obtain ⟨x, hx, rfl⟩ := Option.map_eq_some_iff.mp hr
  exact Option.map_eq_some_iff.mpr ⟨x, h args st x hx, rfl⟩

mutual

theorem evalNode_below (h : o.Below o') : (n : Node) → (stack : List Datum) →
    EvalBelow (evalNode p l o n stack) (evalNode p l o' n stack)
  | .instr i, stack => by
      rw [evalNode, evalNode]
      exact evalInstr_below h i stack
  | .block loop sig body, stack => by
      rw [evalNode, evalNode]
      refine .bind (.refl _) fun (outer, args) => .bind ?_ fun _ => .refl _
      exact .ite (evalLoop_below (evalSeq_below h body) args) (evalSeq_below h body args)
  | .ifThen sig body, stack => by
      rw [evalNode, evalNode]
      refine .bind (.refl _) fun (stack, c) => .bind (.refl _) fun (outer, args) =>
        .bind ?_ fun _ => .refl _
      exact .ite (evalSeq_below h body args) (.refl _)
  | .ifElse sig body alternative, stack => by
      rw [evalNode, evalNode]
      refine .bind (.refl _) fun (stack, c) => .bind (.refl _) fun (outer, args) =>
        .bind ?_ fun _ => .refl _
      exact .ite (evalSeq_below h body args) (evalSeq_below h alternative args)

theorem evalSeq_below (h : o.Below o') : (ns : List Node) → (stack : List Datum) →
    EvalBelow (evalSeq p l o ns stack) (evalSeq p l o' ns stack)
  | [], stack => by
      rw [evalSeq, evalSeq]
      exact .refl _
  | n :: ns, stack => by
      rw [evalSeq, evalSeq]
      refine .bind (evalNode_below h n stack) fun flow => ?_
      cases flow with
      | next stack' => exact evalSeq_below h ns stack'
      | branch depth stack' => exact .refl _
      | ret stack' => exact .refl _

end

theorem evalFunction_below (h : o.Below o') {f : Function} {args : List Datum}
    {shared : Shared σ} {x : Ending (Shared σ) (List Datum)}
    (hx : evalFunction p l o f args shared = some x) :
    evalFunction p l o' f args shared = some x := by
  unfold evalFunction at hx ⊢
  cases hbody : f.body with
  | error e => rw [hbody] at hx; exact hx
  | ok body =>
      rw [hbody] at hx
      obtain ⟨r, hr, rfl⟩ := Option.map_eq_some_iff.mp hx
      exact Option.map_eq_some_iff.mpr ⟨r, evalSeq_below h body [] _ r hr, rfl⟩

end Below

/-! ## Answers that grow -/

/-- The oracles answer more and more, and `o` answers what one of them does. -/
structure Oracle.Reaches (os : Nat → Oracle σ) (o : Oracle σ) : Prop where
  grows : ∀ n, (os n).Below (os (n + 1))
  reached : ∀ r args shared x, o r args shared = some x → ∃ n, os n r args shared = some x

/-- The evaluations end more and more often, and where `y` ends one of them does. -/
structure EvalReaches (xs : Nat → Eval σ α) (y : Eval σ α) : Prop where
  grows : ∀ n, EvalBelow (xs n) (xs (n + 1))
  reached : ∀ st r, y st = some r → ∃ n, xs n st = some r

theorem EvalReaches.refl (x : Eval σ α) : EvalReaches (fun _ => x) x :=
  ⟨fun _ => .refl x, fun _ _ h => ⟨0, h⟩⟩

theorem EvalReaches.le {xs : Nat → Eval σ α} {y : Eval σ α} (h : EvalReaches xs y) {n m : Nat}
    (hle : n ≤ m) : EvalBelow (xs n) (xs m) := by
  induction hle with
  | refl => exact .refl _
  | step _ ih => exact fun st r hr => h.grows _ st r (ih st r hr)

theorem EvalReaches.bind {xs : Nat → Eval σ α} {y : Eval σ α} {ks : Nat → α → Eval σ β}
    {k : α → Eval σ β} (h : EvalReaches xs y) (hk : ∀ a, EvalReaches (fun n => ks n a) (k a)) :
    EvalReaches (fun n => xs n >>= ks n) (y >>= k) := by
  refine ⟨fun n => .bind (h.grows n) fun a => (hk a).grows n, fun st r hr => ?_⟩
  rw [bind_apply] at hr
  obtain ⟨⟨ra, st'⟩, hra, hkr⟩ := Option.bind_eq_some_iff.mp hr
  obtain ⟨n, hn⟩ := h.reached st _ hra
  cases ra with
  | error e =>
      refine ⟨n, ?_⟩
      rw [bind_apply, hn]
      exact hkr
  | ok a =>
      obtain ⟨m, hm⟩ := (hk a).reached st' r hkr
      refine ⟨max n m, ?_⟩
      rw [bind_apply, h.le (Nat.le_max_left n m) st _ hn]
      exact (hk a).le (Nat.le_max_right n m) st' r hm

theorem EvalReaches.ite {c : Prop} [Decidable c] {xs xs' : Nat → Eval σ α} {y y' : Eval σ α}
    (h : EvalReaches xs y) (h' : EvalReaches xs' y') :
    EvalReaches (fun n => if c then xs n else xs' n) (if c then y else y') := by
  by_cases hc : c
  · simp only [if_pos hc]; exact h
  · simp only [if_neg hc]; exact h'

section Reaches

variable {p : Program} {l : Layout} {os : Nat → Oracle σ} {o : Oracle σ}

theorem askTop_reaches (h : Oracle.Reaches os o) (r : Request) (n : Nat) (stack : List Datum) :
    EvalReaches (fun k => askTop (os k) r n stack) (askTop o r n stack) := by
  refine .bind (.refl _) fun (rest, args) => .bind ⟨fun k st x hx => ?_, fun st x hx => ?_⟩
    fun _ => .refl _
  · obtain ⟨y, hy, rfl⟩ := Option.map_eq_some_iff.mp hx
    exact Option.map_eq_some_iff.mpr ⟨y, h.grows k r args st.shared y hy, rfl⟩
  · obtain ⟨y, hy, rfl⟩ := Option.map_eq_some_iff.mp hx
    obtain ⟨k, hk⟩ := h.reached r args st.shared y hy
    exact ⟨k, Option.map_eq_some_iff.mpr ⟨y, hk, rfl⟩⟩

theorem evalInstr_reaches (h : Oracle.Reaches os o) (i : Instr) (stack : List Datum) :
    EvalReaches (fun k => evalInstr p l (os k) i stack) (evalInstr p l o i stack) := by
  unfold evalInstr
  generalize i.operation = op
  generalize i.imm = imm
  dsimp only
  split
  all_goals first | exact .refl _ | exact askTop_reaches h _ _ _ | skip
  all_goals
    split
    · exact askTop_reaches h _ _ _
    · exact .refl _

theorem evalLoop_reaches {n : Nat} {bodies : Nat → List Datum → Eval σ Flow}
    {body : List Datum → Eval σ Flow} (h : ∀ args, EvalReaches (fun k => bodies k args) (body args))
    (args : List Datum) :
    EvalReaches (fun k => evalLoop n (bodies k) args) (evalLoop n body args) := by
  refine ⟨fun k => evalLoop_below (fun args => (h args).grows k) args, fun st r hr => ?_⟩
  obtain ⟨count, hcount⟩ := untilDone_eq_some_iff.mp hr
  clear hr
  -- The rounds need answers of their own; the largest bound serves all.
  suffices hsome : ∃ k, within (fun (x : List Datum × Store σ) =>
      (bodies k x.1 x.2).map (roundEnd n)) count (args, st) = some r by
    obtain ⟨k, hk⟩ := hsome
    exact ⟨k, untilDone_of_within hk⟩
  have hmono {k m : Nat} (hle : k ≤ m) {c : Nat} {x : List Datum × Store σ} :
      within (fun (x : List Datum × Store σ) => (bodies k x.1 x.2).map (roundEnd n)) c x = some r →
      within (fun (x : List Datum × Store σ) => (bodies m x.1 x.2).map (roundEnd n)) c x
        = some r := by
    induction c generalizing x with
    | zero => intro h; cases h
    | succ c ih =>
        rw [within, within]
        cases hbody : bodies k x.1 x.2 with
        | none => intro h; cases h
        | some e =>
            rw [(h x.1).le hle x.2 e hbody]
            dsimp only [Option.map_some]
            cases roundEnd n e with
            | inl next => exact ih
            | inr done => exact id
  induction count generalizing args st with
  | zero => cases hcount
  | succ count ih =>
      rw [within] at hcount
      cases hbody : body args st with
      | none =>
          simp only [hbody, Option.map_none] at hcount
          cases hcount
      | some e =>
          simp only [hbody, Option.map_some] at hcount
          obtain ⟨k, hk⟩ := (h args).reached st e hbody
          cases hend : roundEnd n e with
          | inl next =>
              rw [hend] at hcount
              obtain ⟨m, hm⟩ := ih next.1 next.2 hcount
              refine ⟨max k m, ?_⟩
              rw [within]
              simp only [(h args).le (Nat.le_max_left k m) st e hk, Option.map_some, hend]
              exact hmono (Nat.le_max_right k m) hm
          | inr done =>
              rw [hend] at hcount
              refine ⟨k, ?_⟩
              rw [within]
              simp only [hk, Option.map_some, hend]
              exact hcount

mutual

theorem evalNode_reaches (h : Oracle.Reaches os o) : (n : Node) → (stack : List Datum) →
    EvalReaches (fun k => evalNode p l (os k) n stack) (evalNode p l o n stack)
  | .instr i, stack => by
      simp only [evalNode]
      exact evalInstr_reaches h i stack
  | .block loop sig body, stack => by
      simp only [evalNode]
      refine .bind (.refl _) fun (outer, args) => .bind ?_ fun _ => .refl _
      exact .ite (evalLoop_reaches (evalSeq_reaches h body) args) (evalSeq_reaches h body args)
  | .ifThen sig body, stack => by
      simp only [evalNode]
      refine .bind (.refl _) fun (stack, c) => .bind (.refl _) fun (outer, args) =>
        .bind ?_ fun _ => .refl _
      exact .ite (evalSeq_reaches h body args) (.refl _)
  | .ifElse sig body alternative, stack => by
      simp only [evalNode]
      refine .bind (.refl _) fun (stack, c) => .bind (.refl _) fun (outer, args) =>
        .bind ?_ fun _ => .refl _
      exact .ite (evalSeq_reaches h body args) (evalSeq_reaches h alternative args)

theorem evalSeq_reaches (h : Oracle.Reaches os o) : (ns : List Node) → (stack : List Datum) →
    EvalReaches (fun k => evalSeq p l (os k) ns stack) (evalSeq p l o ns stack)
  | [], stack => by
      simp only [evalSeq]
      exact .refl _
  | n :: ns, stack => by
      simp only [evalSeq]
      refine .bind (evalNode_reaches h n stack) fun flow => ?_
      cases flow with
      | next stack' => exact evalSeq_reaches h ns stack'
      | branch depth stack' => exact .refl _
      | ret stack' => exact .refl _

end

theorem evalFunction_reaches (h : Oracle.Reaches os o) {f : Function} {args : List Datum}
    {shared : Shared σ} {x : Ending (Shared σ) (List Datum)}
    (hx : evalFunction p l o f args shared = some x) :
    ∃ n, evalFunction p l (os n) f args shared = some x := by
  unfold evalFunction at hx ⊢
  cases hbody : f.body with
  | error e => rw [hbody] at hx; exact ⟨0, hx⟩
  | ok body =>
      rw [hbody] at hx
      obtain ⟨r, hr, rfl⟩ := Option.map_eq_some_iff.mp hx
      obtain ⟨n, hn⟩ := (evalSeq_reaches h body []).reached _ r hr
      exact ⟨n, Option.map_eq_some_iff.mpr ⟨r, hn, rfl⟩⟩

end Reaches

/-! ## Replies -/

/-- The reply to a request, where calls are at most a number of levels deep: the host's, or
what the body of the callee comes to. -/
noncomputable def World.replyWithin (w : World σ) : Nat → Oracle σ
  | 0, _, _, _ => none
  | _ + 1, .host key, args, shared => some (w.askHost key args shared)
  | n + 1, .call fn, args, shared =>
    match w.program.func? fn with
    | none => some (.error .stuck, shared)
    | some f => evalFunction w.program w.layout (w.replyWithin n) f args shared

/-- The reply to a request, however deep its calls are. -/
noncomputable def World.reply (w : World σ) : Oracle σ := fun r args shared =>
  eventual fun n => w.replyWithin n r args shared

theorem World.replyWithin_below (w : World σ) (n : Nat) :
    (w.replyWithin n).Below (w.replyWithin (n + 1)) := by
  induction n with
  | zero => exact fun _ _ _ _ h => by cases h
  | succ n ih =>
      intro r args shared x hx
      cases r with
      | host key => exact hx
      | call fn =>
          rw [replyWithin] at hx ⊢
          split at hx
          · exact hx
          · exact evalFunction_below ih hx

theorem World.reply_eq_some_iff {w : World σ} {r : Request} {args : List Datum}
    {shared : Shared σ} {x : Ending (Shared σ) (List Datum)} :
    w.reply r args shared = some x ↔ ∃ n, w.replyWithin n r args shared = some x :=
  eventual_eq_some_iff (x := fun n => w.replyWithin n r args shared) fun n x =>
    w.replyWithin_below n r args shared x

theorem World.replyWithin_reaches (w : World σ) : Oracle.Reaches w.replyWithin w.reply :=
  ⟨w.replyWithin_below, fun _ _ _ _ => reply_eq_some_iff.mp⟩

theorem World.reply_host (w : World σ) (key : HostKey) (args : List Datum) (shared : Shared σ) :
    w.reply (.host key) args shared = some (w.askHost key args shared) :=
  reply_eq_some_iff.mpr ⟨1, rfl⟩

theorem World.reply_call (w : World σ) {fn : Nat} {f : Function} (h : w.program.func? fn = some f)
    (args : List Datum) (shared : Shared σ) :
    w.reply (.call fn) args shared
      = evalFunction w.program w.layout w.reply f args shared := by
  apply Option.ext
  intro x
  rw [reply_eq_some_iff]
  constructor
  · rintro ⟨n, hn⟩
    cases n with
    | zero => cases hn
    | succ n =>
        rw [replyWithin, h] at hn
        exact evalFunction_below (fun _ _ _ _ hx => reply_eq_some_iff.mpr ⟨n, hx⟩) hn
  · intro hx
    obtain ⟨n, hn⟩ := evalFunction_reaches w.replyWithin_reaches hx
    exact ⟨n + 1, by rw [replyWithin, h]; exact hn⟩

/-! ## Replies have the declared types -/

/-- The host is told the right types, and answers with values of them or fails. -/
structure World.Sound (w : World σ) : Prop where
  describe : ∀ key sig, requestSignature? w.program (.host key) = some sig →
    (w.describe key).params = sig.params ∧ (w.describe key).results = sig.results
  results : ∀ memory h values results memory',
    w.host.call memory w.lane h values = (.ok results, memory') →
    results.map (·.type) = h.results

theorem fitsAll_ofValue (l : Layout) (values : List Value) :
    FitsAll l (values.map (·.type)) (values.map (.ofValue l)) := by
  induction values with
  | nil => exact .nil
  | cons v values ih => exact .cons (Datum.fits_ofValue l v) ih

theorem World.askHost_fits {w : World σ} (hw : w.Sound) {key : HostKey} {sig : Signature}
    (hsig : requestSignature? w.program (.host key) = some sig) {args : List Datum}
    {shared : Shared σ} (hshared : w.program.GlobalsFit w.layout shared.globals) :
    AnswerFits w.program w.layout sig.results (w.askHost key args shared).1
      (w.askHost key args shared).2 := by
  unfold askHost
  dsimp only
  split
  · exact ⟨trivial, hshared⟩
  · next results host hcall =>
    refine ⟨?_, hshared⟩
    rw [← (hw.describe key sig hsig).2, ← hw.results _ _ _ _ _ hcall]
    exact fitsAll_ofValue w.layout results

/-- In a checked program, replies have the declared types. -/
theorem World.reply_sound {w : World σ} (hp : w.program.Formed) (hw : w.Sound)
    (hcheck : ∀ f ∈ w.program.funcs, w.program.check f = .ok ()) :
    Oracle.Sound w.program w.layout w.reply := by
  intro r sig args shared hsig hargs hshared answer shared' h
  obtain ⟨n, hn⟩ := reply_eq_some_iff.mp h
  clear h
  induction n generalizing r sig args shared answer shared' with
  | zero => cases hn
  | succ n ih =>
      cases r with
      | host key =>
          have hanswer : w.askHost key args shared = (answer, shared') := Option.some.inj hn
          have hfits := @askHost_fits _ w hw key sig hsig args shared hshared
          rw [hanswer] at hfits
          exact hfits
      | call fn =>
          obtain ⟨f, hf, rfl⟩ := Option.map_eq_some_iff.mp hsig
          rw [replyWithin, hf] at hn
          have hmem : f ∈ w.program.funcs := by
            unfold Program.func? at hf
            split at hf
            · cases hf
            · exact List.mem_of_getElem? hf
          exact evalFunction_fits hp ih hmem (hcheck f hmem) hargs hshared hn

/-- A world whose host has nothing to answer. -/
def World.alone (p : Program) (l : Layout) : World Unit where
  program := p
  layout := l
  describe := fun key =>
    let sig := (requestSignature? p (.host key)).getD ⟨[], []⟩
    ⟨.host 0, key, "", sig.params, sig.results⟩
  host := ⟨fun _ _ _ _ => (.error (.plain ""), ())⟩
  lane := 0

theorem World.alone_program (p : Program) (l : Layout) : (World.alone p l).program = p := rfl

theorem World.alone_layout (p : Program) (l : Layout) : (World.alone p l).layout = l := rfl

theorem World.alone_sound (p : Program) (l : Layout) : (World.alone p l).Sound := by
  refine ⟨fun key sig hsig => ?_, fun _ _ _ _ _ h => ?_⟩
  · have hsig : requestSignature? p (.host key) = some sig := hsig
    change ((requestSignature? p (.host key)).getD ⟨[], []⟩).params = _
      ∧ ((requestSignature? p (.host key)).getD ⟨[], []⟩).results = _
    rw [hsig]
    exact ⟨rfl, rfl⟩
  · cases h

end Structured

end WasmShader
