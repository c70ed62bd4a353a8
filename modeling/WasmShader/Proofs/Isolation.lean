import WasmShader.Proofs.Suspension

/-!
# Lanes of an executor

What an executor does on a lane depends on that lane alone, and not on which of the lanes it is. An
operation leaves all other lanes as they are (`Ready.perform`), and on lanes that hold the same it
comes to the same (`SameLane.perform`). So operations on many lanes, in whatever order they are
interleaved, are for each lane its own operations on the only lane of an executor; and what is saved
of a lane goes on in the same way on another.
-/

namespace WasmShader

namespace Execution

open Compile

/-! ## Operations -/

/-- An operation on a lane. The caller says whether it has given up and how long a run may take. -/
inductive LaneOp
  | invoke (cancelled : Bool) (fuel : Nat) (symbol : Symbol) (args : List Value)
  | resume (cancelled : Bool) (fuel : Nat)
  | complete (request : Pending) (results : List Value)
  | snapshot
  | restore (saved : Lane)

/-- What the caller sees of an operation that does not fail. -/
inductive Seen
  | outcome (o : Outcome)
  | state (saved : Lane)
  | done

/-- What is saved of a lane: neither its number nor the record of the blocks that ran. -/
def Lane.snapshot (ln : Lane) : Lane := { ln with index := 0, trace := [] }

/-- Shows the result of an operation to its caller. -/
def showing {α : Type} (view : α → Seen) (y : Except Abort α × Lane) : Except Abort Seen × Lane :=
  (y.1.map view, y.2)

/-- What an operation makes of a lane of an executor. -/
def LaneOp.on (x : Executor) : LaneOp → Lane → OnLane Seen
  | .invoke cancelled fuel symbol args, ln =>
    (ln.invoke (x.env cancelled) fuel symbol args).map (showing .outcome)
  | .resume cancelled fuel, ln => (ln.resume (x.env cancelled) fuel).map (showing .outcome)
  | .complete request results, ln =>
    some (showing (fun _ => .done) (ln.complete x.exe request results))
  | .snapshot, ln => some (.ok (.state ln.snapshot), ln)
  | .restore saved, ln => some (.ok .done, ln.restore saved)

namespace Executor

/-- Performs an operation on a lane. -/
def perform (x : Executor) (i : Int) (op : LaneOp) : Option (Except Abort Seen × Executor) :=
  x.onLane i (op.on x)

/-- Performs operations on lanes, one after the other. -/
def performAll : Executor → List (Int × LaneOp) → Option (List (Int × Except Abort Seen) × Executor)
  | x, [] => some ([], x)
  | x, op :: ops => (x.perform op.1 op.2).bind fun z =>
    (performAll z.2 ops).map fun z' => ((op.1, z.1) :: z'.1, z'.2)

end Executor

/-- The operations on lane `i` among others, as operations on lane `j`. -/
def movedTo (i j : Nat) : List (Int × LaneOp) → List (Int × LaneOp)
  | [] => []
  | op :: ops => if op.1 = (i : Int) then ((j : Int), op.2) :: movedTo i j ops else movedTo i j ops

/-- What is seen of the operations on a lane. -/
def seenOn (i : Nat) : List (Int × Except Abort Seen) → List (Except Abort Seen)
  | [] => []
  | r :: rs => if r.1 = (i : Int) then r.2 :: seenOn i rs else seenOn i rs

/-! ## Operations on mates -/

section Lanes

variable {x : Executable} {ln ln' : Lane}

theorem Alike.map {α β : Type} {r r' : Except Abort α} (h : Alike r r') (f : α → β) :
    Alike (r.map f) (r'.map f) := by
  rcases h.cases with ⟨a, rfl, rfl⟩ | ⟨e, e', rfl, rfl, houtline⟩
  · exact .refl _
  · exact alike_error houtline

theorem Agree.showing {α : Type} {y y' : Except Abort α × Lane} (h : Agree x ln ln' y y')
    (view : α → Seen) : Agree x ln ln' (showing view y) (Execution.showing view y') :=
  ⟨h.result.map view, h.mates, h.index, h.index'⟩

theorem Mates.snapshot (h : Mates x ln ln') : ln'.snapshot = ln.snapshot := by
  have hglobals : ln'.globals = ln.globals := h.words .globals
  rw [Lane.snapshot, Lane.snapshot, h.stack, h.io, hglobals, h.entry, h.steps]

/-- A state is taken over alike by mates. -/
theorem Mates.restore (h : Mates x ln ln') (saved : Lane) :
    Mates x (ln.restore saved) (ln'.restore saved) where
  sized r := by
    cases r with
    | stack => exact (Lane.size_overwrite _ _).trans (h.sized .stack)
    | io => exact (Lane.size_overwrite _ _).trans (h.sized .io)
    | globals => exact (Lane.size_overwrite _ _).trans (h.sized .globals)
  words r := by
    cases r with
    | stack => exact congrArg (Lane.overwrite · saved.stack.words) (h.words .stack)
    | io => exact congrArg (Lane.overwrite · saved.io) (h.words .io)
    | globals => exact congrArg (Lane.overwrite · saved.globals) (h.words .globals)
  entry := rfl
  steps := rfl
  level := h.level

/-- An operation comes to the same on mates. -/
theorem Mates.perform {x y : Executor} (hx : Runnable x.exe) (hexe : y.exe = x.exe)
    (henv : ∀ cancelled, y.env cancelled = x.env cancelled) (h : Mates x.exe ln ln') (op : LaneOp) :
    Option.Rel (Agree x.exe ln ln') (op.on x ln) (op.on y ln') := by
  cases op with
  | invoke cancelled fuel symbol args =>
      rw [LaneOp.on, LaneOp.on, henv]
      exact (h.invoke hx rfl fuel symbol args).map fun _ _ hagree => hagree.showing _
  | resume cancelled fuel =>
      rw [LaneOp.on, LaneOp.on, henv]
      exact (h.resume hx rfl fuel).map fun _ _ hagree => hagree.showing _
  | complete request results =>
      rw [LaneOp.on, LaneOp.on, hexe]
      exact .some ((h.complete request results).showing _)
  | snapshot =>
      rw [LaneOp.on, LaneOp.on, h.snapshot]
      exact .some (h.agree (.refl _))
  | restore saved => exact .some ⟨.refl _, h.restore saved, rfl, rfl⟩

end Lanes

/-! ## Executors -/

namespace Executor

/-- The lanes are numbered by their places and have regions of the sizes of the module. -/
def Ready (x : Executor) : Prop :=
  ∀ (k : Nat) (ln : Lane), x.lanes[k]? = some ln → ln.index = k ∧ ln.Sized x.exe

/-- The regions of all lanes have addresses of 32 bits. -/
def Addressed (x : Executor) : Prop := ∀ r, x.lanes.length * regionSize x.exe r ≤ 2 ^ 32

variable {x : Executor} {α : Type}

theorem lane_eq {i : Nat} {ln : Lane} (h : x.lanes[i]? = some ln) : x.lane i = .ok ln := by
  rw [lane, if_neg (by omega), Int.toNat_natCast, h]

theorem onLane_eq {i : Nat} {ln : Lane} (h : x.lanes[i]? = some ln) (op : Lane → OnLane α) :
    x.onLane i op = (op ln).map fun y => (y.1, x.putLane y.2) := by
  rw [onLane, lane_eq h]

/-- An operation is on one of the lanes, or it changes nothing. -/
theorem onLane_cases (x : Executor) (i : Int) (op : Lane → OnLane α) :
    (∃ k < x.lanes.length, i = (k : Int)) ∨ (∀ k < x.lanes.length, i ≠ (k : Int))
      ∧ ∃ e, x.onLane i op = some (Failure.raise e, x) := by
  by_cases hneg : i < 0
  · exact .inr ⟨fun k _ => by omega, _, by rw [onLane, lane, if_pos hneg]⟩
  · obtain ⟨k, rfl⟩ := Int.eq_ofNat_of_zero_le (Int.not_lt.mp hneg)
    by_cases hk : k < x.lanes.length
    · exact .inl ⟨k, hk, rfl⟩
    · have hnone := List.getElem?_eq_none (Nat.le_of_not_lt hk)
      exact .inr ⟨fun k' _ => by omega, _,
        by rw [onLane, lane, if_neg hneg, Int.toNat_natCast, hnone]⟩

theorem lanes_putLane (x : Executor) (ln : Lane) {k : Nat} (hk : ln.index = k) :
    (k < x.lanes.length → (x.putLane ln).lanes[k]? = some ln)
      ∧ ∀ i : Nat, i ≠ k → (x.putLane ln).lanes[i]? = x.lanes[i]? := by
  subst hk
  exact ⟨fun hlt => List.getElem?_set_self hlt, fun i hi => List.getElem?_set_ne (Ne.symm hi)⟩

/-- What stays of an executor, whatever is done on its lanes. -/
structure Follows (x x' : Executor) : Prop where
  ready : x'.Ready
  exe : x'.exe = x.exe
  settings : x'.settings = x.settings
  length : x'.lanes.length = x.lanes.length

theorem Follows.trans {x x₁ x₂ : Executor} (h : Follows x x₁) (h' : Follows x₁ x₂) : Follows x x₂ :=
  ⟨h'.ready, h'.exe.trans h.exe, h'.settings.trans h.settings, h'.length.trans h.length⟩

/-- What stays of an executor if something is done on lane `k` alone. -/
structure Keeps (x : Executor) (k : Nat) (x' : Executor) : Prop extends Follows x x' where
  lanes : ∀ i : Nat, i ≠ k → x'.lanes[i]? = x.lanes[i]?

theorem Ready.putLane (h : x.Ready) {k : Nat} {ln : Lane} (hk : ln.index = k)
    (hsized : ln.Sized x.exe) : Keeps x k (x.putLane ln) where
  ready i ln' hln' := by
    by_cases hi : i = k
    · subst hi
      have hlt : i < x.lanes.length := by
        have hlt := (List.getElem?_eq_some_iff.mp hln').1
        rwa [Executor.putLane, List.length_set] at hlt
      rw [(lanes_putLane x ln hk).1 hlt] at hln'
      cases hln'
      exact ⟨hk, hsized⟩
    · rw [(lanes_putLane x ln hk).2 i hi] at hln'
      exact h i ln' hln'
  exe := rfl
  settings := rfl
  length := List.length_set
  lanes := (lanes_putLane x ln hk).2

/-- An operation changes its own lane at most. -/
theorem Ready.perform (hx : Runnable x.exe) (h : x.Ready) {i : Int} {op : LaneOp}
    {r : Except Abort Seen} {x' : Executor} (hop : x.perform i op = some (r, x')) :
    Follows x x' ∧ ∀ k : Nat, i ≠ (k : Int) → x'.lanes[k]? = x.lanes[k]? := by
  rcases x.onLane_cases i (op.on x) with ⟨k, hlt, rfl⟩ | ⟨-, e, he⟩
  · obtain ⟨hindex, hsized⟩ := h k _ (List.getElem?_eq_getElem hlt)
    rw [Executor.perform, onLane_eq (List.getElem?_eq_getElem hlt)] at hop
    obtain ⟨y, hy, hput⟩ := Option.map_eq_some_iff.mp hop
    obtain ⟨z, -, hagree⟩ := ((Mates.self hsized).perform hx rfl (fun _ => rfl) op).of_some hy
    cases hput
    have hkeeps := h.putLane (hagree.index.trans hindex) hagree.mates.sized
    exact ⟨hkeeps.toFollows, fun i hi => hkeeps.lanes i fun heq => hi (congrArg _ heq.symm)⟩
  · rw [Executor.perform, he] at hop
    cases hop
    exact ⟨⟨h, rfl, rfl, rfl⟩, fun _ _ => rfl⟩

theorem Ready.performAll (hx : Runnable x.exe) (h : x.Ready) {ops : List (Int × LaneOp)}
    {rs : List (Int × Except Abort Seen)} {x' : Executor} (hops : x.performAll ops = some (rs, x')) :
    Follows x x' := by
  induction ops generalizing x rs with
  | nil =>
      cases hops
      exact ⟨h, rfl, rfl, rfl⟩
  | cons op ops ih =>
      obtain ⟨⟨r, x₁⟩, hop, hrest⟩ := Option.bind_eq_some_iff.mp hops
      obtain ⟨⟨rs₁, x₂⟩, hbehind, heq⟩ := Option.map_eq_some_iff.mp hrest
      cases heq
      obtain ⟨hfirst, -⟩ := h.perform hx hop
      exact hfirst.trans (ih (hfirst.exe ▸ hx) hfirst.ready hbehind)

end Executor

/-- Lane `i` of one executor is as lane `j` of another, at the same point of the same invocation. -/
structure SameLane (x : Executor) (i : Nat) (y : Executor) (j : Nat) : Prop where
  exe : y.exe = x.exe
  env : ∀ cancelled, y.env cancelled = x.env cancelled
  ready : x.Ready
  ready' : y.Ready
  lane : ∃ ln ln', x.lanes[i]? = some ln ∧ y.lanes[j]? = some ln' ∧ Mates x.exe ln ln'

section Executors

open Executor

variable {x y : Executor} {i j : Nat}

/-- What is done on other lanes makes no difference to a lane. -/
theorem SameLane.other (h : SameLane x i y j) {x' : Executor} (hfollows : Executor.Follows x x')
    (hlane : x'.lanes[i]? = x.lanes[i]?) : SameLane x' i y j where
  exe := h.exe.trans hfollows.exe.symm
  env cancelled := by
    rw [h.env, Executor.env, Executor.env, hfollows.exe, hfollows.settings]
  ready := hfollows.ready
  ready' := h.ready'
  lane := by
    rw [hlane, hfollows.exe]
    exact h.lane

/-- Results of an operation on lane `i` and of one on lane `j` are alike, and so are the lanes. -/
structure Alongside (i j : Nat) {α : Type} (z z' : Except Abort α × Executor) : Prop where
  result : Alike z.1 z'.1
  lane : SameLane z.2 i z'.2 j

/-- Operations that come to the same on mates come to the same on lanes that are the same. -/
theorem SameLane.onLane {α : Type} (h : SameLane x i y j) {op op' : Lane → OnLane α}
    (hop : ∀ ln ln', Mates x.exe ln ln' → Option.Rel (Agree x.exe ln ln') (op ln) (op' ln')) :
    Option.Rel (Alongside i j) (x.onLane i op) (y.onLane j op') := by
  obtain ⟨ln, ln', hln, hln', hmates⟩ := h.lane
  obtain ⟨hindex, -⟩ := h.ready i ln hln
  obtain ⟨hindex', -⟩ := h.ready' j ln' hln'
  rw [onLane_eq hln, onLane_eq hln']
  refine (hop ln ln' hmates).map fun z z' hagree => ?_
  have hz := hagree.index.trans hindex
  have hz' := hagree.index'.trans hindex'
  have hput := h.ready.putLane hz hagree.mates.sized
  have hput' := h.ready'.putLane hz' (h.exe ▸ hagree.mates.sized')
  refine ⟨hagree.result, h.exe, h.env, hput.ready, hput'.ready, z.2, z'.2, ?_, ?_, hagree.mates⟩
  · exact (lanes_putLane x z.2 hz).1 (List.getElem?_eq_some_iff.mp hln).1
  · exact (lanes_putLane y z'.2 hz').1 (List.getElem?_eq_some_iff.mp hln').1

theorem SameLane.perform (hx : Runnable x.exe) (h : SameLane x i y j) (op : LaneOp) :
    Option.Rel (Alongside i j) (x.perform i op) (y.perform j op) :=
  h.onLane fun _ _ hmates => hmates.perform hx h.exe h.env op

/-! ## Operations one after the other -/

/-- The operations on the lanes of an executor are, for each lane, its own operations on a lane that
is the same. -/
theorem SameLane.performAll (hx : Runnable x.exe) (h : SameLane x i y j)
    {ops : List (Int × LaneOp)} {rs : List (Int × Except Abort Seen)} {x' : Executor}
    (hops : x.performAll ops = some (rs, x')) :
    ∃ rs' y', y.performAll (movedTo i j ops) = some (rs', y')
      ∧ List.Forall₂ Alike (seenOn i rs) (seenOn j rs') ∧ SameLane x' i y' j := by
  induction ops generalizing x y rs with
  | nil =>
      cases hops
      exact ⟨[], y, rfl, .nil, h⟩
  | cons op ops ih =>
      obtain ⟨⟨r, x₁⟩, hop, hrest⟩ := Option.bind_eq_some_iff.mp hops
      obtain ⟨⟨rs₁, x₂⟩, hbehind, heq⟩ := Option.map_eq_some_iff.mp hrest
      cases heq
      obtain ⟨hfollows, hlanes⟩ := h.ready.perform hx hop
      have hx₁ := hfollows.exe ▸ hx
      rw [movedTo, seenOn]
      by_cases hi : op.1 = (i : Int)
      · rw [hi] at hop
        obtain ⟨z, hop', halong⟩ := (h.perform hx op.2).of_some hop
        obtain ⟨rs', y', hrun, hseen, hsame⟩ := ih hx₁ halong.lane hbehind
        refine ⟨((j : Int), z.1) :: rs', y', ?_, ?_, hsame⟩
        · rw [if_pos hi, Executor.performAll, hop', Option.bind_some, hrun, Option.map_some]
        · rw [if_pos hi, seenOn, if_pos rfl]
          exact .cons halong.result hseen
      · rw [if_neg hi, if_neg hi]
        exact ih hx₁ (h.other hfollows (hlanes i hi)) hbehind

/-- The operations on the lanes of an executor come to an end if those on each lane do. -/
theorem performAll_isSome (hx : Runnable x.exe) (hready : x.Ready) {ops : List (Int × LaneOp)}
    {lone : Nat → Executor} (hlone : ∀ i < x.lanes.length, SameLane x i (lone i) 0)
    (hends : ∀ i < x.lanes.length, ((lone i).performAll (movedTo i 0 ops)).isSome) :
    (x.performAll ops).isSome := by
  induction ops generalizing x lone with
  | nil => rfl
  | cons op ops ih =>
      rw [Executor.performAll]
      rcases x.onLane_cases op.1 (op.2.on x) with ⟨k, hlt, hk⟩ | ⟨hnone, e, he⟩
      · have hown := hends k hlt
        have hrel := (hlone k hlt).perform hx op.2
        rw [movedTo, if_pos hk, Executor.performAll] at hown
        rw [hk]
        generalize hop : x.perform k op.2 = y at hrel
        generalize (lone k).perform ((0 : Nat) : Int) op.2 = y' at hrel hown
        cases hrel with
        | none => cases hown
        | @some z z' halong =>
            obtain ⟨hfollows, hlanes⟩ := hready.perform hx hop
            rw [Option.bind_some, Option.isSome_map] at hown ⊢
            refine @ih z.2 (hfollows.exe ▸ hx) hfollows.ready (Function.update lone k z'.2)
              (fun i hi => ?_) fun i hi => ?_
            · by_cases hik : i = k
              · subst hik
                rw [Function.update_self]
                exact halong.lane
              · rw [Function.update_of_ne hik]
                exact (hlone i (hfollows.length ▸ hi)).other hfollows
                  (hlanes i fun heq => hik (Int.ofNat.inj heq.symm))
            · by_cases hik : i = k
              · subst hik
                rw [Function.update_self]
                exact hown
              · have hrest := hends i (hfollows.length ▸ hi)
                rw [movedTo, if_neg fun heq => hik (Int.ofNat.inj (heq.symm.trans hk))] at hrest
                rw [Function.update_of_ne hik]
                exact hrest
      · rw [Executor.perform, he, Option.bind_some, Option.isSome_map]
        refine ih hx hready hlone fun i hi => ?_
        have hrest := hends i hi
        rwa [movedTo, if_neg (hnone i hi)] at hrest

end Executors

/-! ## Runs on many lanes -/

/-- How a host answers a lane, by what it remembers of it. -/
abbrev Answering (σ : Type) := σ → HostFunc → List Value → Except Failure (List Value) × σ

/-- A host that answers one lane. -/
def Answering.host {σ : Type} (answering : Answering σ) : Host σ where
  call h _ f args := answering h f args

/-- A host that answers all lanes in the same way, each by what it remembers of that lane. -/
def Answering.hostOfAll {σ : Type} (answering : Answering σ) : Host (Nat → σ) where
  call h lane f args :=
    ((answering (h lane) f args).1, Function.update h lane (answering (h lane) f args).2)

section Runs

open Executor

variable {σ : Type} {x y : Executor} {i j : Nat} {answering? : Option (Answering σ)}

/-- What a host of many lanes remembers of lane `i` is what a host of one lane remembers, and of the
others it remembers what it did. -/
def Remembers (i : Nat) (before : Nat → σ) (h : Nat → σ) (s : σ) : Prop :=
  h i = s ∧ ∀ k, k ≠ i → h k = before k

theorem hostsAgree_answering (answering? : Option (Answering σ)) (i j : Nat) (before : Nat → σ) :
    HostsAgree (Remembers i before) i j (answering?.map (·.hostOfAll)) (answering?.map (·.host)) := by
  cases answering? with
  | none => exact .none
  | some answering =>
      refine .some ?_
      rintro h s ⟨rfl, hothers⟩ f args
      refine ⟨rfl, Function.update_self .., fun k hk => ?_⟩
      exact (Function.update_of_ne hk ..).trans (hothers k hk)

theorem runVia_id {env : Env} {τ : Type} (host? : Option (Host τ)) (fuel : Nat) (ln : Lane)
    (symbol : Symbol) (args : List Value) (h : τ) :
    ln.runVia env host? (fun _ ln => ln) fuel symbol args h = ln.run env host? fuel symbol args h := by
  have hserve (fuel' k : Nat) (r : Except Abort Outcome) (ln : Lane) (h : τ) :
      ln.serveVia env host? symbol.text (fun _ ln => ln) fuel' k r h
        = ln.serve env host? symbol.text fuel' r h := by
    induction fuel' generalizing k r ln h with
    | zero => rfl
    | succ fuel' ih =>
        cases r with
        | error e => rfl
        | ok outcome =>
            cases outcome with
            | finished values steps => rfl
            | yielded p steps =>
                unfold Lane.serveVia Lane.serve
                cases host? with
                | none => rfl
                | some host =>
                    dsimp only
                    rcases host.call h ln.index p.func p.args with ⟨_ | results, h'⟩
                    · rfl
                    · dsimp only
                      rcases ln.complete env.exe p results with ⟨_ | _, ln'⟩
                      · rfl
                      · exact congrArg (Option.bind (ln'.resume env fuel'))
                          (funext fun resumed => ih (k + 1) resumed.1 resumed.2 h')
  rw [Lane.runVia, Lane.run]
  simp only [hserve]

/-- An export runs alike on mates, if the hosts answer alike. -/
theorem Mates.run {e : Executable} {env : Env} {ln ln' : Lane} {τ : Type} {R : σ → τ → Prop}
    {host? : Option (Host σ)} {host'? : Option (Host τ)} (hx : Runnable e) (henv : env.exe = e)
    (hhosts : HostsAgree R ln.index ln'.index host? host'?) (hmates : Mates e ln ln') (fuel : Nat)
    (symbol : Symbol) (args : List Value) {h : σ} {h' : τ} (hR : R h h') :
    Option.Rel (RanWith R e ln ln') (ln.run env host? fuel symbol args h)
      (ln'.run env host'? fuel symbol args h') := by
  have hdetour : Harmless e (fun _ ln => ln) fun _ _ _ => True :=
    ⟨fun _ ln _ _ _ => ⟨ln.trace, rfl⟩, fun _ _ _ _ _ _ _ _ _ _ _ _ _ => trivial⟩
  rw [← runVia_id host'?]
  exact hmates.runVia hx henv hhosts hdetour fuel (fun _ _ _ _ => trivial) hR

theorem run_eq {τ : Type} {host? : Option (Host τ)} {cancelled : Bool} {ln : Lane}
    (h : x.lanes[i]? = some ln) (symbol : Symbol) (args : List Value) (g : τ) :
    x.run host? cancelled i symbol args g
      = (ln.run (x.env cancelled) host? ampleFuel symbol args g).map fun z =>
          (z.1, x.putLane z.2.1, z.2.2) := by
  have hlane : x.lane i = .ok ln := by
    rw [lane, if_neg (by omega), Int.toNat_natCast, h]
  rw [run, hlane]

/-- A run on lane `i` of many and a run on lane `j` come to the same, for the lanes and for their
hosts. -/
structure RanBeside (x : Executor) (i j : Nat) (before : Nat → σ)
    (z : Except Abort (List Value) × Executor × (Nat → σ))
    (z' : Except Abort (List Value) × Executor × σ) : Prop where
  result : Alike z.1 z'.1
  keeps : Keeps x i z.2.1
  lane : SameLane z.2.1 i z'.2.1 j
  remembers : Remembers i before z.2.2 z'.2.2

/-- An export runs alike on lanes that are the same. -/
theorem SameLane.run (hx : Runnable x.exe) (h : SameLane x i y j)
    (answering? : Option (Answering σ)) (cancelled : Bool) (symbol : Symbol) (args : List Value)
    (before : Nat → σ) :
    Option.Rel (RanBeside x i j before)
      (x.run (answering?.map (·.hostOfAll)) cancelled i symbol args before)
      (y.run (answering?.map (·.host)) cancelled j symbol args (before i)) := by
  obtain ⟨ln, ln', hln, hln', hmates⟩ := h.lane
  obtain ⟨hindex, -⟩ := h.ready i ln hln
  obtain ⟨hindex', -⟩ := h.ready' j ln' hln'
  have hhosts := hostsAgree_answering answering? ln.index ln'.index before
  have hremembers : Remembers ln.index before before (before ln.index) := ⟨rfl, fun _ _ => rfl⟩
  have henv : (x.env cancelled).exe = x.exe := rfl
  have hrel := hmates.run hx henv hhosts ampleFuel symbol args hremembers
  rw [hindex] at hrel
  rw [run_eq hln, run_eq hln', h.env]
  refine hrel.map fun z z' hran => ?_
  obtain ⟨⟨hresult, hmates', hz, hz'⟩, hremembers⟩ := hran
  have hput := h.ready.putLane (hz.trans hindex) hmates'.sized
  have hput' := h.ready'.putLane (hz'.trans hindex') (h.exe ▸ hmates'.sized')
  refine ⟨hresult, hput, ⟨h.exe, h.env, hput.ready, hput'.ready, z.2.1, z'.2.1, ?_, ?_, hmates'⟩,
    hremembers⟩
  · exact (lanes_putLane x z.2.1 (hz.trans hindex)).1 (List.getElem?_eq_some_iff.mp hln).1
  · exact (lanes_putLane y z'.2.1 (hz'.trans hindex')).1 (List.getElem?_eq_some_iff.mp hln').1

/-- A lane of an executor is as it is. -/
theorem Executor.Ready.sameLane (h : x.Ready) (hi : i < x.lanes.length) : SameLane x i x i := by
  have hln := List.getElem?_eq_getElem hi
  exact ⟨rfl, fun _ => rfl, h, h, _, _, hln, hln, .self (h i _ hln).2⟩

/-- What runs on the lanes from number `i` on come to, for each of them what a run comes to alone;
the lanes below are left as they were. -/
structure RanTogether (x : Executor) (i : Nat) (answering? : Option (Answering σ)) (cancelled : Bool)
    (symbol : Symbol) (lists : List (List Value)) (before : Nat → σ)
    (z : List (Except Abort (List Value)) × Executor × (Nat → σ)) : Prop where
  follows : Executor.Follows x z.2.1
  results : z.1.length = lists.length
  lanes : ∀ k, k < i → z.2.1.lanes[k]? = x.lanes[k]?
  remembers : ∀ k, k < i → z.2.2 k = before k
  run : ∀ k args r, lists[k]? = some args → z.1[k]? = some r → ∀ y j, SameLane x (i + k) y j →
    ∃ r' y', y.run (answering?.map (·.host)) cancelled j symbol args (before (i + k))
      = some (r', y', z.2.2 (i + k)) ∧ Alike r r' ∧ SameLane z.2.1 (i + k) y' j

theorem runFrom_together (hx : Runnable x.exe) (hready : x.Ready) (cancelled : Bool)
    (symbol : Symbol) {lists : List (List Value)} (hlists : i + lists.length ≤ x.lanes.length)
    (before : Nat → σ) {z : List (Except Abort (List Value)) × Executor × (Nat → σ)}
    (hrun : runFrom (answering?.map (·.hostOfAll)) cancelled symbol x i lists before = some z) :
    RanTogether x i answering? cancelled symbol lists before z := by
  induction lists generalizing x i before z with
  | nil =>
      cases hrun
      exact ⟨⟨hready, rfl, rfl, rfl⟩, rfl, fun _ _ => rfl, fun _ _ => rfl, nofun⟩
  | cons args lists ih =>
      rw [List.length_cons] at hlists
      rw [runFrom] at hrun
      obtain ⟨⟨r, x₁, h₁⟩, hfirst, hrest⟩ := Option.bind_eq_some_iff.mp hrun
      obtain ⟨⟨rs, x₂, h₂⟩, hbehind, heq⟩ := Option.bind_eq_some_iff.mp hrest
      cases heq
      have hown {y : Executor} {j : Nat} (h : SameLane x i y j) :=
        (h.run hx answering? cancelled symbol args before).of_some hfirst
      obtain ⟨_, -, hbeside⟩ := hown (hready.sameLane (by omega))
      have hkeeps := hbeside.keeps
      have hremembers := hbeside.remembers.2
      dsimp only at hkeeps hremembers
      have hmore := ih (hkeeps.exe ▸ hx) hkeeps.ready (by rw [hkeeps.length]; omega) h₁ hbehind
      refine
        { follows := hkeeps.toFollows.trans hmore.follows
          results := congrArg (· + 1) hmore.results
          lanes := fun k hk => (hmore.lanes k (by omega)).trans (hkeeps.lanes k (by omega))
          remembers := fun k hk => (hmore.remembers k (by omega)).trans (hremembers k (by omega))
          run := fun k args' r' hargs hr y j h => ?_ }
      cases k with
      | zero =>
          cases hargs
          cases hr
          obtain ⟨⟨r', y', s⟩, hrun', hbeside⟩ := hown h
          obtain ⟨hresult, -, hlane, hs, -⟩ := hbeside
          dsimp only at hresult hlane hs
          have hi := hmore.remembers i (by omega)
          dsimp only at hi
          refine ⟨r', y', ?_, hresult, ?_⟩
          · dsimp only [Nat.add_zero]
            rw [hi, hs]
            exact hrun'
          · exact hlane.other hmore.follows (hmore.lanes i (by omega))
      | succ k =>
          have hother : i + (k + 1) ≠ i := by omega
          have hat : i + 1 + k = i + (k + 1) := by omega
          have hsame := h.other hkeeps.toFollows (hkeeps.lanes _ hother)
          rw [← hat] at hsame
          obtain ⟨r'', y', hrun', hresult, hlane⟩ := hmore.run k args' r' hargs hr y j hsame
          rw [hat, hremembers _ hother] at hrun'
          rw [hat] at hlane
          exact ⟨r'', y', hrun', hresult, hlane⟩

/-- Runs on many lanes come to an end if each of them does. -/
theorem runFrom_isSome (hx : Runnable x.exe) (hready : x.Ready) (cancelled : Bool)
    (symbol : Symbol) {lists : List (List Value)} (hlists : i + lists.length ≤ x.lanes.length)
    (before : Nat → σ)
    (hends : ∀ k args, lists[k]? = some args → ∃ y j, SameLane x (i + k) y j
      ∧ (y.run (answering?.map (·.host)) cancelled j symbol args (before (i + k))).isSome) :
    (runFrom (answering?.map (·.hostOfAll)) cancelled symbol x i lists before).isSome := by
  induction lists generalizing x i before with
  | nil => rfl
  | cons args lists ih =>
      rw [List.length_cons] at hlists
      obtain ⟨y, j, hsame, hsome⟩ := hends 0 args rfl
      have hfirst := (hsame.run hx answering? cancelled symbol args before).isSome_eq
      rw [hsome, Nat.add_zero] at hfirst
      obtain ⟨⟨r, x₁, h₁⟩, hfirst⟩ := Option.isSome_iff_exists.mp hfirst
      have hself := hready.sameLane (i := i) (by omega)
      obtain ⟨_, -, hbeside⟩ := (hself.run hx answering? cancelled symbol args before).of_some hfirst
      have hkeeps := hbeside.keeps
      have hremembers := hbeside.remembers.2
      dsimp only at hkeeps hremembers
      have hlists₁ : i + 1 + lists.length ≤ x₁.lanes.length := by
        rw [hkeeps.length]
        omega
      have hrest := ih (hkeeps.exe ▸ hx) hkeeps.ready hlists₁ h₁ fun k args' hargs => ?_
      · obtain ⟨z, hrest⟩ := Option.isSome_iff_exists.mp hrest
        rw [runFrom, hfirst]
        change ((runFrom _ _ _ x₁ (i + 1) lists h₁).bind _).isSome
        rw [hrest]
        rfl
      · obtain ⟨y', j', hsame', hsome'⟩ := hends (k + 1) args' hargs
        have hother : i + (k + 1) ≠ i := by omega
        rw [← hremembers _ hother] at hsome'
        have hat : i + 1 + k = i + (k + 1) := by omega
        rw [hat]
        exact ⟨y', j', hsame'.other hkeeps.toFollows (hkeeps.lanes _ hother), hsome'⟩

end Runs

/-! ## Isolation -/

/-- The lanes of an executor are apart, and each can take another's place.

Whatever is done on the lanes comes to the same for each of them as what is done on it, in its order,
on the only lane of the executor `one`, and ends if this does for all of them. Of runs on the first
lanes each comes to what it comes to alone. What is saved of a lane and restored on another goes on
there as on the lane itself. -/
structure Isolated (many one : Executor) : Prop where
  operations : ∀ ops rs many', many.performAll ops = some (rs, many') →
    ∀ i < many.lanes.length, ∃ rs' one', one.performAll (movedTo i 0 ops) = some (rs', one')
      ∧ List.Forall₂ Alike (seenOn i rs) (seenOn 0 rs') ∧ SameLane many' i one' 0
  ends : ∀ ops, (∀ i < many.lanes.length, (one.performAll (movedTo i 0 ops)).isSome) →
    (many.performAll ops).isSome
  runs : ∀ ops rs x, many.performAll ops = some (rs, x) →
    ∀ {σ : Type} (answering? : Option (Answering σ)) cancelled symbol lists before,
      lists.length ≤ many.lanes.length → ∀ r x' h,
      x.runLanes (answering?.map (·.hostOfAll)) cancelled symbol lists before = some (r, x', h) →
        ∃ results, r = .ok results
          ∧ RanTogether x 0 answering? cancelled symbol lists before (results, x', h)
  runsEnd : ∀ ops rs x, many.performAll ops = some (rs, x) →
    ∀ {σ : Type} (answering? : Option (Answering σ)) cancelled symbol lists before,
      lists.length ≤ many.lanes.length →
      (∀ i args, lists[i]? = some args → ∃ y j, SameLane x i y j
        ∧ (y.run (answering?.map (·.host)) cancelled j symbol args (before i)).isSome) →
      (x.runLanes (answering?.map (·.hostOfAll)) cancelled symbol lists before).isSome
  moved : ∀ ops rs x, many.performAll ops = some (rs, x) →
    ∀ (i j : Nat) saved, x.lanes[i]? = some saved → j < many.lanes.length →
      ∃ x', x.perform j (.restore saved.snapshot) = some (.ok .done, x') ∧ SameLane x i x' j
        ∧ ∀ ops' rs₁ x₁, x.performAll ops' = some (rs₁, x₁) →
          ∃ rs₂ x₂, x'.performAll (movedTo i j ops') = some (rs₂, x₂)
            ∧ List.Forall₂ Alike (seenOn i rs₁) (seenOn j rs₂) ∧ SameLane x₁ i x₂ j

section Isolation

open Executor

variable {x : Executable} {settings : Settings} {many one : Executor}

theorem ready_new (h : Executor.new (some x) settings = .ok many) : many.Ready := by
  cases h
  intro k ln hln
  obtain ⟨i, hi, rfl⟩ := Option.map_eq_some_iff.mp ((List.getElem?_map ..).symm.trans hln)
  obtain ⟨hlt, rfl⟩ := List.getElem?_eq_some_iff.mp hi
  rw [List.getElem_range]
  exact ⟨rfl, Lane.sized_new x _⟩

/-- Lanes of one executor that are not the same can both be addressed. -/
theorem Executor.Addressed.fits (h : many.Addressed) {i j : Nat} (hi : i < many.lanes.length)
    (hj : j < many.lanes.length) (hne : i ≠ j) : Execution.Fits many.exe i := by
  intro r
  have hall := h r
  have htwo : 2 * regionSize many.exe r ≤ many.lanes.length * regionSize many.exe r :=
    Nat.mul_le_mul_right _ (by omega)
  have hlast : (i + 1) * regionSize many.exe r ≤ many.lanes.length * regionSize many.exe r :=
    Nat.mul_le_mul_right _ hi
  rw [Nat.succ_mul] at hlast
  exact ⟨by omega, by omega⟩

theorem Executor.Addressed.level (h : many.Addressed) {i j : Nat} (hi : i < many.lanes.length)
    (hj : j < many.lanes.length) : i = j ∨ Execution.Fits many.exe i ∧ Execution.Fits many.exe j := by
  by_cases hij : i = j
  · exact .inl hij
  · exact .inr ⟨h.fits hi hj hij, h.fits hj hi (Ne.symm hij)⟩

/-- A fresh lane is as the only one of an executor that has no more. -/
theorem sameLane_new (hmany : Executor.new (some x) settings = .ok many)
    (hone : Executor.new (some x) { settings with lanes := 1 } = .ok one) (haddressed : many.Addressed)
    {i : Nat} (hi : i < many.lanes.length) : SameLane many i one 0 := by
  have hready := ready_new hmany
  have hready' := ready_new hone
  have hlevel := haddressed.level hi (Nat.zero_lt_of_lt hi)
  cases hmany
  cases hone
  refine ⟨rfl, fun _ => rfl, hready, hready', Lane.new x i, Lane.new x 0, ?_, rfl, ?_⟩
  · rw [List.length_map, List.length_range] at hi
    rw [List.getElem?_map, List.getElem?_range hi]
    rfl
  · exact ⟨Lane.sized_new x i, fun r => by cases r <;> rfl, rfl, rfl, hlevel⟩

/-- What is saved of a lane and restored on another is the same lane there. -/
theorem Executor.Ready.restore {x : Executor} (h : x.Ready) (haddressed : x.Addressed) {i j : Nat}
    {saved : Lane} (hi : x.lanes[i]? = some saved) (hj : j < x.lanes.length) :
    ∃ x', x.perform j (.restore saved.snapshot) = some (.ok .done, x') ∧ SameLane x i x' j := by
  have hlane := List.getElem?_eq_getElem hj
  obtain ⟨hindex, hsized⟩ := h j _ hlane
  obtain ⟨hindex', hsaved⟩ := h i saved hi
  have hlt := (List.getElem?_eq_some_iff.mp hi).1
  have hrestored : x.lanes[j].restore saved.snapshot
      = { saved with index := x.lanes[j].index, trace := x.lanes[j].trace } :=
    hsized.restore hsaved
  refine ⟨x.putLane (x.lanes[j].restore saved.snapshot), ?_, ?_⟩
  · rw [Executor.perform, onLane_eq hlane]
    rfl
  · have hput : Keeps x j (x.putLane (x.lanes[j].restore saved.snapshot)) :=
      h.putLane hindex (by rw [hrestored]; exact hsaved)
    have hat := (lanes_putLane x (x.lanes[j].restore saved.snapshot) hindex).1 hj
    refine ⟨rfl, fun _ => rfl, h, hput.ready, saved, _, hi, hat, ?_⟩
    rw [hrestored]
    refine ⟨hsaved, fun r => by cases r <;> rfl, rfl, rfl, ?_⟩
    rw [hindex', hindex]
    exact haddressed.level hlt hj

theorem Executor.Follows.addressed {x x' : Executor} (h : Follows x x') (haddressed : x.Addressed) :
    x'.Addressed := by
  intro r
  rw [h.length, h.exe]
  exact haddressed r

/-- The lanes of an executor are isolated from each other. -/
theorem Runnable.isolated (hx : Runnable x) (hmany : Executor.new (some x) settings = .ok many)
    (hone : Executor.new (some x) { settings with lanes := 1 } = .ok one)
    (haddressed : many.Addressed) : Isolated many one := by
  have hready := ready_new hmany
  have hexe : many.exe = x := by cases hmany; rfl
  rw [← hexe] at hx
  exact
    { operations := fun ops rs many' hops i hi =>
        (sameLane_new hmany hone haddressed hi).performAll hx hops
      ends := fun ops hends =>
        performAll_isSome hx hready (fun i hi => sameLane_new hmany hone haddressed hi) hends
      runs := fun ops rs y hops _ answering? cancelled symbol lists before hlists r y' h hrun => by
        have hfollows := hready.performAll hx hops
        rw [runLanes, if_neg (by rw [hfollows.length]; omega)] at hrun
        obtain ⟨⟨results, y₁, h₁⟩, hrun, heq⟩ := Option.map_eq_some_iff.mp hrun
        cases heq
        exact ⟨results, rfl, runFrom_together (hfollows.exe ▸ hx) hfollows.ready cancelled symbol
          (by rw [hfollows.length]; omega) before hrun⟩
      runsEnd := fun ops rs y hops _ answering? cancelled symbol lists before hlists hends => by
        have hfollows := hready.performAll hx hops
        rw [runLanes, if_neg (by rw [hfollows.length]; omega), Option.isSome_map]
        refine runFrom_isSome (hfollows.exe ▸ hx) hfollows.ready cancelled symbol
          (by rw [hfollows.length]; omega) before fun k args hargs => ?_
        rw [Nat.zero_add]
        exact hends k args hargs
      moved := fun ops rs y hops i j saved hsaved hj => by
        have hfollows := hready.performAll hx hops
        obtain ⟨y', hrestore, hsame⟩ := hfollows.ready.restore (hfollows.addressed haddressed) hsaved
          (hfollows.length.symm ▸ hj)
        exact ⟨y', hrestore, hsame, fun ops' rs₁ x₁ hops' =>
          hsame.performAll (hfollows.exe ▸ hx) hops'⟩ }

end Isolation

end Execution

/-! ## Compiled modules -/

namespace Compile

open Execution

variable {config : Config} {p : Program} {out : Compiled}

/-- The lanes of an executor of a compiled module are isolated from each other. -/
theorem compile_isolates_lanes {m : Binary.Module} (hread : Program.ofModule m = .ok p)
    (h : compile config p = .ok out) {settings : Settings} {many one : Executor}
    (hmany : Executor.new (some out.toExecutable) settings = .ok many)
    (hone : Executor.new (some out.toExecutable) { settings with lanes := 1 } = .ok one)
    (haddressed : many.Addressed) : Isolated many one :=
  (runnable_of_compile (Program.formed_of_ofModule hread) h).isolated hmany hone haddressed

/-! Three lanes for the question, two of which are asked in turn. -/

def threeLanes : Settings := { lanes := 3 }

def askingInTurn : List (Int × LaneOp) :=
  [(2, .invoke false 64 (.ofText "f") []), (1, .invoke false 64 (.ofText "f") []),
   (2, .resume false 64)]

/-- The theorem at three lanes of a program that asks the host. -/
theorem compile_isolates_lanes_question :
    Program.ofModule question = .ok questionProgram
      ∧ ∃ out many one, compile narrow questionProgram = .ok out
        ∧ Executor.new (some out.toExecutable) threeLanes = .ok many
        ∧ Executor.new (some out.toExecutable) { threeLanes with lanes := 1 } = .ok one
        ∧ many.Addressed ∧ Isolated many one ∧ (many.performAll askingInTurn).isSome := by
  obtain ⟨out, hout, hcode⟩ := compile_question
  have hsmall : questionCode.toOption.all (fun out => [Region.stack, .io, .globals].all fun r =>
      decide (3 * regionSize out.toExecutable r ≤ 2 ^ 32)) = true := by
    decide +kernel
  have hruns : questionCode.toOption.all (fun out =>
      (Executor.new (some out.toExecutable) threeLanes).toOption.all fun many =>
        (many.performAll askingInTurn).isSome) = true := by
    decide +kernel
  rw [hcode] at hsmall hruns
  have haddressed : ∀ r, 3 * regionSize out.toExecutable r ≤ 2 ^ 32 := fun r =>
    of_decide_eq_true (List.all_eq_true.mp hsmall r (by cases r <;> simp))
  exact ⟨read_question, out, _, _, hout, rfl, rfl, haddressed,
    compile_isolates_lanes read_question hout rfl rfl haddressed, hruns⟩

end Compile

end WasmShader
