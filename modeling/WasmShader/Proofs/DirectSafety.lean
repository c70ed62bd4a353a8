import WasmShader.Proofs.ComponentOrder

/-!
# Direct-safe functions and the machine

What a direct-safe function calls comes before it in the order of functions, since it is in no
component that calls itself. So all of its callees are direct-safe and can be called as ordinary
functions. A function that is not direct-safe leads to one that takes part in recursion or asks the
host, and needs the machine.
-/

namespace WasmShader.CallGraph

variable {g : CallGraph}

/-- What a direct-safe function calls can be called as an ordinary function. -/
theorem canCallDirect_of_mem_callees (hg : g.Sound) {fn c : Nat}
    (h : g.analyze.directSafe fn = true) (hc : c ∈ g.callees fn) :
    g.analyze.canCallDirect fn c = true := by
  have hmem := List.contains_iff_mem.mp h
  have hspec {x : Nat} (hx : x ∈ g.analyze.direct) := (mem_directFrom hx).resolve_left List.not_mem_nil
  obtain ⟨horder, hblocked, hcallees⟩ := hspec hmem
  have hcdirect := hcallees c hc
  have hcorder := (hspec hcdirect).1
  have hlt := idxOf_lt_of_ordered (ordered_orderedComponents hg)
    horder hc fun comp hcomp hfn => by
      rw [← Bool.not_eq_true]
      intro hrec
      exact hblocked (List.mem_append_left _ (mem_recursive hcomp hrec hfn))
  rw [Analysis.canCallDirect, Bool.and_eq_true]
  refine ⟨List.contains_iff_mem.mpr hcdirect, decide_eq_true ?_⟩
  rw [rank_eq_idxOf hcorder, rank_eq_idxOf horder]
  exact Int.ofNat_lt.mpr (hlt.resolve_left List.not_mem_nil)

/-- What a function calls comes before it, or the function takes part in recursion. -/
theorem idxOf_callee_lt (hg : g.Sound) {fn c : Nat} (hfn : fn ∈ g.nodes) (hc : c ∈ g.callees fn)
    (hnot : fn ∉ g.analyze.groups.flatMap (·.members)) :
    g.analyze.order.idxOf c < g.analyze.order.idxOf fn := by
  refine (idxOf_lt_of_ordered (ordered_orderedComponents hg)
    ((mem_order hg).mpr hfn) hc fun comp hcomp hmem => ?_).resolve_left List.not_mem_nil
  rw [← Bool.not_eq_true]
  exact fun hrec => hnot (mem_recursive hcomp hrec hmem)

/-- The functions that are not direct-safe because of something they do themselves. -/
def blocked (g : CallGraph) : List Nat :=
  g.analyze.groups.flatMap (·.members) ++ g.analyze.yields

/-- A function that is not direct-safe reaches one that does something itself. -/
theorem directSafe_or_calls (hg : g.Sound) {fn : Nat} (hfn : fn ∈ g.nodes) :
    g.analyze.directSafe fn = true ∨ ∃ b ∈ g.blocked, g.Calls fn b := by
  have hgo : ∀ (rest done safe : List Nat), g.analyze.order = done ++ rest →
      (∀ x ∈ done, x ∈ safe ∨ ∃ b ∈ g.blocked, g.Calls x b) →
      ∀ x ∈ g.analyze.order, x ∈ g.directFrom g.blocked rest safe
        ∨ ∃ b ∈ g.blocked, g.Calls x b := by
    intro rest
    induction rest with
    | nil =>
        intro done safe horder hdone x hx
        rw [List.append_nil] at horder
        exact hdone x (horder ▸ hx)
    | cons y rest ih =>
        intro done safe horder hdone
        have hsplit : g.analyze.order = (done ++ [y]) ++ rest := by
          rw [horder, List.append_assoc, List.singleton_append]
        have hy : y ∈ g.nodes := by
          rw [← mem_order hg, horder]
          exact List.mem_append_right _ List.mem_cons_self
        rw [directFrom]
        split
        · refine ih _ _ hsplit fun x hx => ?_
          rcases List.mem_append.mp hx with hx | hx
          · exact (hdone x hx).imp_left (List.mem_cons_of_mem _)
          · exact .inl (List.mem_cons.mpr (.inl (List.mem_singleton.mp hx)))
        · next hcond =>
          refine ih _ _ hsplit fun x hx => ?_
          rcases List.mem_append.mp hx with hx | hx
          · exact hdone x hx
          · rw [List.mem_singleton.mp hx]
            refine .inr ?_
            by_cases hblocked : y ∈ g.blocked
            · exact ⟨y, hblocked, .refl⟩
            -- Some callee is not direct-safe, and it has been decided before.
            obtain ⟨c, hc, hunsafe⟩ : ∃ c ∈ g.callees y, c ∉ safe := by
              by_contra hall
              refine hcond ?_
              rw [Bool.and_eq_true, Bool.not_eq_true', ← Bool.not_eq_true, List.contains_iff_mem,
                List.all_eq_true]
              refine ⟨hblocked, fun c hc => List.contains_iff_mem.mpr ?_⟩
              by_contra hnot
              exact hall ⟨c, hc, hnot⟩
            have hlt := idxOf_callee_lt hg hy hc fun h => hblocked (List.mem_append_left _ h)
            have hynot : y ∉ done := by
              have hnodup := nodup_order hg
              rw [horder] at hnodup
              exact fun hmem => (List.nodup_append.mp hnodup).2.2 y hmem y List.mem_cons_self rfl
            have hdoneC : c ∈ done := by
              by_contra hnot
              rw [horder, List.idxOf_append_of_notMem hnot, List.idxOf_append_of_notMem hynot,
                List.idxOf_cons_self] at hlt
              omega
            obtain ⟨b, hb, hcalls⟩ := (hdone c hdoneC).resolve_left hunsafe
            exact ⟨b, hb, .head hc hcalls⟩
  rcases hgo _ [] [] rfl (fun x hx => by cases hx) fn ((mem_order hg).mpr hfn) with h | h
  · exact .inl (List.contains_iff_mem.mpr h)
  · exact .inr h

theorem needsMachine_of_calls (hg : g.Sound) {fn b : Nat} (hb : b ∈ g.blocked)
    (h : g.Calls fn b) : g.analyze.needsMachine fn = true := by
  refine List.contains_iff_mem.mpr (mem_distinct_of_mem (List.mem_append_left _ ?_))
  exact (mem_transitiveCallers hg).mpr ⟨b, hb, h⟩

/-- A function either runs as an ordinary call or needs the machine. -/
theorem directSafe_of_not_needsMachine (hg : g.Sound) {fn : Nat} (hfn : fn ∈ g.nodes)
    (h : g.analyze.needsMachine fn = false) : g.analyze.directSafe fn = true := by
  refine (directSafe_or_calls hg hfn).resolve_right ?_
  rintro ⟨b, hb, hcalls⟩
  rw [needsMachine_of_calls hg hb hcalls] at h
  cases h

theorem not_blocked_of_directSafe {fn : Nat} (h : g.analyze.directSafe fn = true) :
    fn ∉ g.blocked :=
  ((mem_directFrom (List.contains_iff_mem.mp h)).resolve_left List.not_mem_nil).2.1

/-- What cannot be called directly needs the machine. -/
theorem needsMachine_of_not_canCallDirect (hg : g.Sound) {fn c : Nat} (hc : c ∈ g.callees fn)
    (h : g.analyze.canCallDirect fn c = false) : g.analyze.needsMachine c = true := by
  have hcnode := hg.callees fn hc
  have hfnode := hg.mem_nodes_of_mem_callees hc
  rcases directSafe_or_calls hg hcnode with hsafe | ⟨b, hb, hcalls⟩
  · rw [Analysis.canCallDirect, hsafe, Bool.true_and, decide_eq_false_iff_not,
      rank_eq_idxOf ((mem_order hg).mpr hcnode), rank_eq_idxOf ((mem_order hg).mpr hfnode),
      Int.ofNat_lt] at h
    -- The two are in one component, so the callee would take part in recursion.
    rcases idxOf_lt_or_together (ordered_orderedComponents hg)
      ((mem_order hg).mpr hfnode) hc with hnil | hlt | ⟨comp, hcomp, hmem, hin⟩
    · cases hnil
    · exact absurd hlt h
    · refine absurd ?_ (not_blocked_of_directSafe hsafe)
      exact List.mem_append_left _
        (mem_recursive hcomp (isRecursive_of_callee hmem hin hc) hin)
  · exact needsMachine_of_calls hg hb hcalls

end WasmShader.CallGraph
