import WasmShader.Proofs.Partiality

/-!
# Repetitions that pause

Two repetitions need not keep step all the time. One of them may give up, or may take more steps to
its end (`untilDone_meets`). And a repetition may be cut into turns, each up to the next point where
it pauses: turn by turn it comes to the same end (`untilDone_turn`).
-/

namespace WasmShader

variable {α β γ δ : Type}

/-! ## Giving up -/

/-- The steps match: either both go on, or the second ends, and the first comes to an end as well. -/
def Meets (R : α → β → Prop) (Q : γ → δ → Prop) (step : α → Option (α ⊕ γ)) (x : α ⊕ γ) :
    β ⊕ δ → Prop
  | .inl b => ∃ a, x = .inl a ∧ R a b
  | .inr d => ∃ c, Sum.elim (untilDone step) some x = some c ∧ Q c d

section Meets

variable {R : α → β → Prop} {Q : γ → δ → Prop} {G : γ → Prop} {step : α → Option (α ⊕ γ)}
  {step' : β → Option (β ⊕ δ)} {a : α} {b : β} {n : Nat}

/-- The repetition comes to an end by giving up. -/
def GivesUp (G : γ → Prop) (step : α → Option (α ⊕ γ)) (a : α) : Prop :=
  ∃ c, untilDone step a = some c ∧ G c

theorem untilDone_of_meets
    (h : ∀ a b, R a b → GivesUp G step a ∨ Option.Rel (Meets R Q step) (step a) (step' b))
    (hab : R a b) (hnot : ¬GivesUp G step a) {d : δ} (hd : within step' n b = some d) :
    ∃ c, untilDone step a = some c ∧ Q c d := by
  induction n generalizing a b with
  | zero => cases hd
  | succ n ih =>
      have hmeets := (h a b hab).resolve_left hnot
      rw [within_succ_eq] at hd
      generalize hx : step a = x at hmeets
      generalize step' b = y at hmeets hd
      cases hmeets with
      | none => cases hd
      | @some x y hmeets =>
          cases y with
          | inl b' =>
              obtain ⟨a', rfl, hab'⟩ := hmeets
              rw [GivesUp, untilDone_of_next hx] at hnot
              rw [untilDone_of_next hx]
              exact ih hab' hnot hd
          | inr d' =>
              cases hd
              obtain ⟨c, hc, hQ⟩ := hmeets
              exact ⟨c, by rw [untilDone_eq, hx]; exact hc, hQ⟩

theorem isSome_of_meets
    (h : ∀ a b, R a b → GivesUp G step a ∨ Option.Rel (Meets R Q step) (step a) (step' b))
    (hab : R a b) (hnot : ¬GivesUp G step a) {c : γ} (hc : within step n a = some c) :
    ∃ d, untilDone step' b = some d := by
  induction n generalizing a b with
  | zero => cases hc
  | succ n ih =>
      have hmeets := (h a b hab).resolve_left hnot
      rw [within_succ_eq] at hc
      generalize hx : step a = x at hmeets hc
      generalize hy : step' b = y at hmeets
      cases hmeets with
      | none => cases hc
      | @some x y hmeets =>
          cases y with
          | inl b' =>
              obtain ⟨a', rfl, hab'⟩ := hmeets
              rw [GivesUp, untilDone_of_next hx] at hnot
              rw [untilDone_of_next hy]
              exact ih hab' hnot hc
          | inr d' => exact ⟨d', untilDone_of_done hy⟩

/-- If each step of one repetition is matched by one of the other, or else the one comes to an end by
giving up, then it gives up, or the two come to matching ends. -/
theorem untilDone_meets
    (h : ∀ a b, R a b → GivesUp G step a ∨ Option.Rel (Meets R Q step) (step a) (step' b))
    (hab : R a b) : GivesUp G step a ∨ Option.Rel Q (untilDone step a) (untilDone step' b) := by
  refine or_iff_not_imp_left.mpr fun hnot => ?_
  cases hd : untilDone step' b with
  | some d =>
      obtain ⟨n, hn⟩ := untilDone_eq_some_iff.mp hd
      obtain ⟨c, hc, hQ⟩ := untilDone_of_meets h hab hnot hn
      rw [hc]
      exact .some hQ
  | none =>
      cases hc : untilDone step a with
      | none => exact .none
      | some c =>
          obtain ⟨n, hn⟩ := untilDone_eq_some_iff.mp hc
          obtain ⟨d, hsome⟩ := isSome_of_meets h hab hnot hn
          rw [hd] at hsome
          cases hsome

end Meets

/-! ## Turns -/

section Turns

variable (pauses : α → Bool) (step : α → Option (α ⊕ β))

/-- A step, unless the repetition pauses. -/
def pausing (a : α) : Option (α ⊕ (α ⊕ β)) :=
  if pauses a then some (.inr (.inl a)) else (step a).map (Sum.map id .inr)

/-- Steps up to the next pause, at least one. -/
noncomputable def turn (a : α) : Option (α ⊕ β) :=
  (step a).bind (Sum.elim (untilDone (pausing pauses step)) fun b => some (.inr b))

variable {pauses step} {a : α} {b : β} {n : Nat}

/-- A repetition is one up to the next pause, and one from there on. -/
theorem untilDone_of_pausing {x : α ⊕ β} (h : within (pausing pauses step) n a = some x) :
    untilDone step a = Sum.elim (untilDone step) some x := by
  induction n generalizing a with
  | zero => cases h
  | succ n ih =>
      rw [within_succ_eq, pausing] at h
      split at h
      · cases h
        rfl
      · rw [untilDone_eq]
        cases hstep : step a with
        | none =>
            rw [hstep] at h
            cases h
        | some y =>
            rw [hstep] at h
            cases y with
            | inl next => exact ih h
            | inr done =>
                cases h
                rfl

/-- What every step preserves holds at the next pause, or at the end. -/
theorem of_untilDone_pausing {P : α ⊕ β → Prop} (hstep : ∀ a x, P (.inl a) → step a = some x → P x)
    (ha : P (.inl a)) {x : α ⊕ β} (hx : untilDone (pausing pauses step) a = some x) : P x := by
  obtain ⟨n, hn⟩ := untilDone_eq_some_iff.mp hx
  clear hx
  induction n generalizing a with
  | zero => cases hn
  | succ n ih =>
      rw [within_succ_eq, pausing] at hn
      split at hn
      · cases hn
        exact ha
      · obtain ⟨y, hy, hn⟩ := Option.bind_eq_some_iff.mp hn
        obtain ⟨z, hz, rfl⟩ := Option.map_eq_some_iff.mp hy
        have hbehind := hstep _ _ ha hz
        cases z with
        | inl next => exact ih hbehind hn
        | inr done =>
            cases hn
            exact hbehind

/-- A repetition that ends does so up to the next pause, or pauses and ends in fewer steps. -/
theorem pausing_of_within (h : within step n a = some b) :
    ∃ x, untilDone (pausing pauses step) a = some x
      ∧ (x = .inr b ∨ ∃ m ≤ n, ∃ a', x = .inl a' ∧ within step m a' = some b) := by
  induction n generalizing a with
  | zero => cases h
  | succ n ih =>
      by_cases hpauses : pauses a = true
      · exact ⟨.inl a, untilDone_of_done (by rw [pausing, if_pos hpauses]),
          .inr ⟨_, Nat.le_refl _, a, rfl, h⟩⟩
      · rw [within_succ_eq] at h
        obtain ⟨y, hstep, h⟩ := Option.bind_eq_some_iff.mp h
        have hpausing : pausing pauses step a = some (Sum.map id .inr y) := by
          rw [pausing, if_neg hpauses, hstep]
          rfl
        cases y with
        | inl next =>
            obtain ⟨x, hx, hends⟩ := ih h
            refine ⟨x, by rw [untilDone_of_next hpausing]; exact hx, hends.imp_right ?_⟩
            rintro ⟨m, hm, rest⟩
            exact ⟨m, Nat.le_succ_of_le hm, rest⟩
        | inr done =>
            cases h
            exact ⟨.inr b, untilDone_of_done hpausing, .inl rfl⟩

/-- What a repetition comes to is what it comes to from the next pause on. -/
theorem untilDone_pausing (pauses : α → Bool) (a : α) : untilDone step a
    = (untilDone (pausing pauses step) a).bind (Sum.elim (untilDone step) some) := by
  cases hx : untilDone (pausing pauses step) a with
  | some x =>
      obtain ⟨n, hn⟩ := untilDone_eq_some_iff.mp hx
      exact untilDone_of_pausing hn
  | none =>
      refine Option.eq_none_iff_forall_ne_some.mpr fun b hb => ?_
      obtain ⟨n, hn⟩ := untilDone_eq_some_iff.mp hb
      obtain ⟨x, hsome, -⟩ := pausing_of_within hn
      rw [hx] at hsome
      cases hsome

/-- Turn by turn a repetition comes to the same end. -/
theorem untilDone_turn (pauses : α → Bool) (a : α) : untilDone (turn pauses step) a = untilDone step a := by
  refine Below.antisymm (fun b hb => ?_) fun b hb => ?_
  · obtain ⟨n, hn⟩ := untilDone_eq_some_iff.mp hb
    clear hb
    induction n generalizing a with
    | zero => cases hn
    | succ n ih =>
        rw [within_succ_eq] at hn
        obtain ⟨x, hx, hn⟩ := Option.bind_eq_some_iff.mp hn
        obtain ⟨y, hstep, hx⟩ := Option.bind_eq_some_iff.mp hx
        rw [untilDone_eq, hstep]
        cases y with
        | inr done =>
            cases hx
            exact hn
        | inl next =>
            obtain ⟨m, hm⟩ := untilDone_eq_some_iff.mp hx
            change untilDone step next = some b
            rw [untilDone_of_pausing hm]
            cases x with
            | inl a' => exact ih a' hn
            | inr done => exact hn
  · obtain ⟨n, hn⟩ := untilDone_eq_some_iff.mp hb
    clear hb
    induction n using Nat.strongRecOn generalizing a with
    | ind n ih =>
        cases n with
        | zero => cases hn
        | succ n =>
            rw [within_succ_eq] at hn
            obtain ⟨y, hstep, hn⟩ := Option.bind_eq_some_iff.mp hn
            rw [untilDone_eq, turn, hstep]
            cases y with
            | inr done => exact hn
            | inl next =>
                obtain ⟨x, hx, hends⟩ := pausing_of_within hn
                change (untilDone (pausing pauses step) next).bind _ = some b
                rw [hx]
                rcases hends with rfl | ⟨m, hm, a', rfl, hrest⟩
                · rfl
                · exact ih m (Nat.lt_succ_of_le hm) a' hrest

end Turns

end WasmShader
