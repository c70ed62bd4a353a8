import Mathlib
import WasmShader.CallGraph.Basic

/-!
# Reachability

`CallGraph.closure` collects what can be reached from a list of numbers. Its result holds
nothing else, and with enough fuel it holds all of it: a step takes a number off the work list
or puts the successors of a new number there, so a run needs no more steps than there are
numbers to start from and edges that start at numbers not seen yet (`unseen`).
-/

namespace WasmShader.CallGraph

variable {next : Nat → List Nat}

/-- One step along an edge. -/
def Leads (next : Nat → List Nat) (a b : Nat) : Prop := b ∈ next a

/-- A number of steps along edges, possibly none. -/
abbrev Reaches (next : Nat → List Nat) : Nat → Nat → Prop := Relation.ReflTransGen (Leads next)

/-- Everything the closure finds was there or is reachable. -/
theorem reaches_of_mem_closure {fuel : Nat} {work seen : List Nat} {x : Nat}
    (h : x ∈ closure next fuel work seen) : x ∈ seen ∨ ∃ a ∈ work, Reaches next a x := by
  induction fuel generalizing work seen with
  | zero => exact .inl (by cases work <;> exact h)
  | succ fuel ih =>
      cases work with
      | nil => exact .inl h
      | cons fn work =>
          rw [closure] at h
          split at h
          · rcases ih h with hseen | ⟨a, ha, hr⟩
            · exact .inl hseen
            · exact .inr ⟨a, List.mem_cons_of_mem _ ha, hr⟩
          · rcases ih h with hseen | ⟨a, ha, hr⟩
            · rcases List.mem_cons.mp hseen with rfl | hseen
              · exact .inr ⟨x, List.mem_cons_self, .refl⟩
              · exact .inl hseen
            · rcases List.mem_append.mp ha with ha | ha
              · exact .inr ⟨fn, List.mem_cons_self, .head ha hr⟩
              · exact .inr ⟨a, List.mem_cons_of_mem _ ha, hr⟩

theorem subset_closure (fuel : Nat) (work seen : List Nat) :
    seen ⊆ closure next fuel work seen := by
  induction fuel generalizing work seen with
  | zero => cases work <;> exact List.Subset.refl _
  | succ fuel ih =>
      cases work with
      | nil => exact List.Subset.refl _
      | cons fn work =>
          rw [closure]
          split
          · exact ih work seen
          · exact List.Subset.trans (List.subset_cons_self fn seen) (ih _ _)

/-- The edges that start at numbers of a domain that have not been seen. -/
def unseen (next : Nat → List Nat) (dom seen : List Nat) : Nat :=
  ((dom.filter fun fn => !seen.contains fn).map fun fn => (next fn).length).sum

/-- Seeing a number uses up its edges. -/
theorem unseen_cons {dom seen : List Nat} {fn : Nat} (hfn : seen.contains fn = false)
    (hdom : fn ∈ dom ∨ next fn = []) :
    unseen next dom (fn :: seen) + (next fn).length ≤ unseen next dom seen := by
  unfold unseen
  induction dom with
  | nil =>
      rcases hdom with hmem | hnone
      · cases hmem
      · rw [hnone]; exact Nat.le_refl _
  | cons a dom ih =>
      have htail : (((dom.filter fun x => !(fn :: seen).contains x).map
          fun x => (next x).length).sum)
          ≤ ((dom.filter fun x => !seen.contains x).map fun x => (next x).length).sum := by
        refine List.Sublist.sum_le_sum (List.Sublist.map _ ?_) (fun _ _ => Nat.zero_le _)
        refine List.monotone_filter_right dom fun x hx => ?_
        rw [List.contains_cons, Bool.not_or, Bool.and_eq_true] at hx
        exact hx.2
      by_cases heq : a = fn
      · subst heq
        have hnew : (!(a :: seen).contains a) = false := by simp
        have hold : (!seen.contains a) = true := by rw [hfn]; rfl
        rw [List.filter_cons, hnew, if_neg Bool.false_ne_true, List.filter_cons, hold, if_pos rfl,
          List.map_cons, List.sum_cons]
        omega
      · have hdom' : fn ∈ dom ∨ next fn = [] := by
          rcases hdom with hmem | hnone
          · exact .inl ((List.mem_cons.mp hmem).resolve_left (Ne.symm heq))
          · exact .inr hnone
        have hsame : (!(fn :: seen).contains a) = !seen.contains a := by
          rw [List.contains_cons, beq_eq_false_iff_ne.mpr heq, Bool.false_or]
        rw [List.filter_cons, List.filter_cons, hsame]
        split
        · rw [List.map_cons, List.map_cons, List.sum_cons, List.sum_cons]
          have := ih hdom'
          omega
        · exact ih hdom'

/-- With enough fuel the closure has all it starts from, and is closed under edges. -/
theorem closure_closed {dom : List Nat} (hdom : ∀ fn, fn ∈ dom ∨ next fn = []) {fuel : Nat}
    {work seen : List Nat} (hfuel : work.length + unseen next dom seen ≤ fuel) :
    work ⊆ closure next fuel work seen
      ∧ ∀ fn ∈ closure next fuel work seen, fn ∈ seen ∨ next fn ⊆ closure next fuel work seen := by
  induction fuel generalizing work seen with
  | zero =>
      cases work with
      | nil => exact ⟨List.nil_subset _, fun fn hfn => .inl hfn⟩
      | cons fn work => rw [List.length_cons] at hfuel; omega
  | succ fuel ih =>
      cases work with
      | nil => exact ⟨List.nil_subset _, fun fn hfn => .inl hfn⟩
      | cons fn work =>
          rw [List.length_cons] at hfuel
          rw [closure]
          split
          · next hseen =>
            have hless : work.length + unseen next dom seen ≤ fuel := by omega
            obtain ⟨hwork, hclosed⟩ := ih hless
            refine ⟨List.cons_subset.mpr ⟨?_, hwork⟩, hclosed⟩
            exact subset_closure fuel work seen (List.contains_iff_mem.mp hseen)
          · next hnew =>
            have hunseen := unseen_cons (Bool.eq_false_iff.mpr hnew) (hdom fn)
            have hless : (next fn ++ work).length + unseen next dom (fn :: seen) ≤ fuel := by
              rw [List.length_append]; omega
            obtain ⟨hwork, hclosed⟩ := ih hless
            have hfn : fn ∈ closure next fuel (next fn ++ work) (fn :: seen) :=
              subset_closure fuel _ _ List.mem_cons_self
            refine ⟨List.cons_subset.mpr ⟨hfn, fun x hx => hwork (List.mem_append_right _ hx)⟩,
              fun x hx => ?_⟩
            rcases hclosed x hx with hmem | hsub
            · rcases List.mem_cons.mp hmem with rfl | hmem
              · exact .inr fun y hy => hwork (List.mem_append_left _ hy)
              · exact .inl hmem
            · exact .inr hsub

/-- The closure is what can be reached. -/
theorem mem_closure_iff {dom : List Nat} (hdom : ∀ fn, fn ∈ dom ∨ next fn = []) {fuel : Nat}
    {work : List Nat} (hfuel : work.length + unseen next dom [] ≤ fuel) {x : Nat} :
    x ∈ closure next fuel work [] ↔ ∃ a ∈ work, Reaches next a x := by
  constructor
  · intro h
    rcases reaches_of_mem_closure h with hnil | hr
    · cases hnil
    · exact hr
  · rintro ⟨a, ha, hr⟩
    obtain ⟨hwork, hclosed⟩ := closure_closed hdom hfuel
    induction hr with
    | refl => exact hwork ha
    | tail _ hstep ih =>
        rcases hclosed _ ih with hnil | hsub
        · cases hnil
        · exact hsub hstep

/-- Nothing has been seen: all edges of the domain count. -/
theorem unseen_nil (next : Nat → List Nat) (dom : List Nat) :
    unseen next dom [] = (dom.map fun fn => (next fn).length).sum := by
  have hall : dom.filter (fun fn => !List.contains [] fn) = dom :=
    List.filter_eq_self.mpr fun _ _ => rfl
  rw [unseen, hall]

end WasmShader.CallGraph
