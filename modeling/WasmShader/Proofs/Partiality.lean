import Mathlib
import WasmShader.Failure

/-!
# Computations that may not end

A computation that may run forever is one with an optional result, `none` standing
for no end. `untilDone` repeats a step until it gives a result; `within` does so for a
bounded number of steps, and the two agree as soon as the bound is large enough.

Two computations agree if both run forever or both end with related results. That is
`Option.Rel`; it passes through sequencing and through repetition in lockstep, so the
proofs that compare two evaluators never have to count steps.
-/

/-! ## Agreement -/

namespace Option.Rel

variable {α β γ δ : Type}

theorem bind {R : α → β → Prop} {Q : γ → δ → Prop} {x : Option α} {y : Option β}
    {f : α → Option γ} {g : β → Option δ} (h : Option.Rel R x y)
    (hfg : ∀ a b, R a b → Option.Rel Q (f a) (g b)) : Option.Rel Q (x.bind f) (y.bind g) := by
  cases h with
  | some hab => exact hfg _ _ hab
  | none => exact .none

theorem mono {R Q : α → β → Prop} {x : Option α} {y : Option β}
    (h : Option.Rel R x y) (himp : ∀ a b, R a b → Q a b) : Option.Rel Q x y := by
  cases h with
  | some hab => exact .some (himp _ _ hab)
  | none => exact .none

theorem map {R : α → β → Prop} {Q : γ → δ → Prop} {x : Option α} {y : Option β} {f : α → γ}
    {g : β → δ} (h : Option.Rel R x y) (hfg : ∀ a b, R a b → Q (f a) (g b)) :
    Option.Rel Q (x.map f) (y.map g) := by
  cases h with
  | some hab => exact .some (hfg _ _ hab)
  | none => exact .none

theorem map_right {R : α → β → Prop} {Q : α → δ → Prop} {x : Option α} {y : Option β}
    {g : β → δ} (h : Option.Rel R x y) (hg : ∀ a b, R a b → Q a (g b)) :
    Option.Rel Q x (y.map g) := by
  cases h with
  | some hab => exact .some (hg _ _ hab)
  | none => exact .none

/-- What is known of the results on one side may be used. -/
theorem and_right {R : α → β → Prop} {P : β → Prop} {x : Option α} {y : Option β}
    (h : Option.Rel R x y) (hy : ∀ b, y = Option.some b → P b) :
    Option.Rel (fun a b => R a b ∧ P b) x y := by
  cases h with
  | some hab => exact .some ⟨hab, hy _ rfl⟩
  | none => exact .none

/-- A result on one side has one on the other. -/
theorem of_some {R : α → β → Prop} {x : Option α} {y : Option β}
    (h : Option.Rel R x y) {a : α} (ha : x = Option.some a) : ∃ b, y = Option.some b ∧ R a b := by
  cases h with
  | some hab => cases ha; exact ⟨_, rfl, hab⟩
  | none => cases ha

theorem isSome_eq {R : α → β → Prop} {x : Option α} {y : Option β}
    (h : Option.Rel R x y) : x.isSome = y.isSome := by
  cases h <;> rfl

theorem eq_of {x y : Option α} (h : Option.Rel Eq x y) : x = y := by
  cases h with
  | some hab => rw [hab]
  | none => rfl

end Option.Rel

/-! ## Repetition -/

namespace WasmShader

variable {α β γ δ : Type}

open Classical in
/-- What results come to that stay once they are there. -/
noncomputable def eventual (x : Nat → Option α) : Option α :=
  if h : ∃ n a, x n = some a then some h.choose_spec.choose else none

/-- A result that is there stays. -/
def Settles (x : Nat → Option α) : Prop := ∀ n a, x n = some a → x (n + 1) = some a

theorem Settles.le {x : Nat → Option α} (hx : Settles x) {n m : Nat} (hle : n ≤ m) {a : α}
    (h : x n = some a) : x m = some a := by
  induction hle with
  | refl => exact h
  | step _ ih => exact hx _ a ih

theorem eventual_eq_some_iff {x : Nat → Option α} (hx : Settles x) {a : α} :
    eventual x = some a ↔ ∃ n, x n = some a := by
  unfold eventual
  constructor
  · intro h
    split at h
    · next hex =>
      refine ⟨hex.choose, ?_⟩
      rw [← Option.some.inj h]
      exact hex.choose_spec.choose_spec
    · cases h
  · rintro ⟨n, hn⟩
    have hex : ∃ n a, x n = some a := ⟨n, a, hn⟩
    rw [dif_pos hex]
    have h1 := hx.le (Nat.le_max_left n hex.choose) hn
    have h2 := hx.le (Nat.le_max_right n hex.choose) hex.choose_spec.choose_spec
    rw [h1] at h2
    exact h2.symm

/-- Repeats a step, at most a number of times. -/
def within (step : α → Option (α ⊕ β)) : Nat → α → Option β
  | 0, _ => none
  | n + 1, a =>
    match step a with
    | none => none
    | some (.inl next) => within step n next
    | some (.inr done) => some done

attribute [grind =] within

/-- Repeats a step until it gives a result. -/
noncomputable def untilDone (step : α → Option (α ⊕ β)) (a : α) : Option β :=
  eventual fun n => within step n a

theorem within_succ {step : α → Option (α ⊕ β)} {n : Nat} {a : α} {b : β}
    (h : within step n a = some b) : within step (n + 1) a = some b := by
  induction n generalizing a with
  | zero => simp [within] at h
  | succ n ih =>
      rw [within] at h ⊢
      split at h
      · cases h
      · exact ih h
      · exact h

/-- A repetition that ends does so after some number of steps. -/
theorem untilDone_eq_some_iff {step : α → Option (α ⊕ β)} {a : α} {b : β} :
    untilDone step a = some b ↔ ∃ n, within step n a = some b :=
  eventual_eq_some_iff (x := fun n => within step n a) fun _ _ => within_succ

theorem untilDone_of_within {step : α → Option (α ⊕ β)} {n : Nat} {a : α} {b : β}
    (h : within step n a = some b) : untilDone step a = some b :=
  untilDone_eq_some_iff.mpr ⟨n, h⟩

theorem untilDone_of_next {step : α → Option (α ⊕ β)} {a next : α}
    (h : step a = some (.inl next)) : untilDone step a = untilDone step next := by
  apply Option.ext
  intro b
  rw [untilDone_eq_some_iff, untilDone_eq_some_iff]
  constructor
  · rintro ⟨n, hn⟩
    cases n with
    | zero => cases hn
    | succ n =>
        rw [within, h] at hn
        exact ⟨n, hn⟩
  · rintro ⟨n, hn⟩
    exact ⟨n + 1, by rw [within, h]; exact hn⟩

theorem untilDone_of_done {step : α → Option (α ⊕ β)} {a : α} {done : β}
    (h : step a = some (.inr done)) : untilDone step a = some done :=
  untilDone_of_within (n := 1) (by rw [within, h])

/-- A step that gives a result more often ends more often. -/
theorem untilDone_below {step step' : α → Option (α ⊕ β)}
    (h : ∀ a r, step a = some r → step' a = some r) {a : α} {b : β}
    (hb : untilDone step a = some b) : untilDone step' a = some b := by
  obtain ⟨n, hn⟩ := untilDone_eq_some_iff.mp hb
  clear hb
  induction n generalizing a with
  | zero => cases hn
  | succ n ih =>
      rw [within] at hn
      split at hn
      · cases hn
      · next next heq => rw [untilDone_of_next (h a _ heq)]; exact ih hn
      · next done heq => cases hn; exact untilDone_of_done (h a _ heq)


/-- Lockstep: if each step of one repetition is matched by a step of the other, the
first ends only where the second does. -/
theorem within_rel {R : α → β → Prop} {Q : γ → δ → Prop} {step : α → Option (α ⊕ γ)}
    {step' : β → Option (β ⊕ δ)}
    (h : ∀ a b, R a b → Option.Rel (Sum.LiftRel R Q) (step a) (step' b)) {n : Nat} {a : α}
    {b : β} (hab : R a b) : Option.Rel Q (within step n a) (within step' n b) := by
  induction n generalizing a b with
  | zero => exact .none
  | succ n ih =>
      have hstep := h a b hab
      rw [within, within]
      generalize step a = x at hstep
      generalize step' b = y at hstep
      cases hstep with
      | none => exact .none
      | some hr =>
          cases hr with
          | inl hnext => exact ih hnext
          | inr hdone => exact .some hdone

theorem untilDone_rel {R : α → β → Prop} {Q : γ → δ → Prop} {step : α → Option (α ⊕ γ)}
    {step' : β → Option (β ⊕ δ)}
    (h : ∀ a b, R a b → Option.Rel (Sum.LiftRel R Q) (step a) (step' b)) {a : α} {b : β}
    (hab : R a b) : Option.Rel Q (untilDone step a) (untilDone step' b) := by
  cases hx : untilDone step a with
  | some r =>
      obtain ⟨n, hn⟩ := untilDone_eq_some_iff.mp hx
      have hrel := within_rel h (n := n) hab
      rw [hn] at hrel
      generalize hy : within step' n b = y at hrel
      cases hrel with
      | some hq => rw [untilDone_of_within hy]; exact .some hq
  | none =>
      cases hy : untilDone step' b with
      | none => exact .none
      | some r =>
          obtain ⟨n, hn⟩ := untilDone_eq_some_iff.mp hy
          have hrel := within_rel h (n := n) hab
          rw [hn] at hrel
          generalize hz : within step n a = z at hrel
          cases hrel with
          | some hq => rw [untilDone_of_within hz] at hx; cases hx

/-! ## Unfolding repetitions -/

section Unfold

variable {step : α → Option (α ⊕ β)}

theorem within_succ_eq (n : Nat) (a : α) :
    within step (n + 1) a = (step a).bind (Sum.elim (within step n) some) := by
  rw [within]
  cases step a with
  | none => rfl
  | some r => cases r <;> rfl

theorem untilDone_eq (a : α) :
    untilDone step a = (step a).bind (Sum.elim (untilDone step) some) := by
  cases h : step a with
  | none =>
      refine Option.eq_none_iff_forall_not_mem.mpr fun b hb => ?_
      obtain ⟨n, hn⟩ := untilDone_eq_some_iff.mp hb
      cases n with
      | zero => cases hn
      | succ n => rw [within, h] at hn; cases hn
  | some r =>
      cases r with
      | inl next => exact untilDone_of_next h
      | inr done => exact untilDone_of_done h

/-- A continuation behind a repetition is one behind each of its ends. -/
theorem bind_elim_bind (x : Option (α ⊕ β)) (again : α → Option β) (k : β → Option γ) :
    (x.bind (Sum.elim again some)).bind k
      = x.bind (Sum.elim (fun a => (again a).bind k) k) := by
  cases x with
  | none => rfl
  | some r => cases r <;> rfl

/-- The first computation ends only where the second does, and with the same result. -/
def Below (x y : Option α) : Prop := ∀ a, x = some a → y = some a

theorem Below.antisymm {x y : Option α} (h : Below x y) (h' : Below y x) : x = y :=
  Option.ext fun a => ⟨h a, h' a⟩

theorem Below.bind {x : Option α} {k k' : α → Option β}
    (h : ∀ a, x = some a → Below (k a) (k' a)) : Below (x.bind k) (x.bind k') := by
  intro b hb
  obtain ⟨a, ha, hk⟩ := Option.bind_eq_some_iff.mp hb
  exact Option.bind_eq_some_iff.mpr ⟨a, ha, h a ha b hk⟩

end Unfold

end WasmShader
