import Mathlib
import WasmShader.Shader.Module

/-!
# Legal modules

A module is legal if no name is used twice, every call statement is of a function further to the
front with as many parameters and results, and entry points run functions without either. Such
a module passes validation, and no function of it calls itself, directly or through others.
-/

namespace WasmShader.Shader

/-- The function is one that a call can be of. -/
structure Function.Serves (f : Function) (c : CallSite) : Prop where
  name : f.name = c.func
  args : c.args = f.params.length
  results : c.results = f.results.length

/-- Every call of the functions is of one of those before them: of `before`, or further to the
front of the list. -/
def CallsEarlier (before fs : List Function) : Prop :=
  ∀ pre f post, fs = pre ++ f :: post → ∀ c ∈ f.calls, ∃ t ∈ before ++ pre, t.Serves c

structure Module.Legal (m : Module) : Prop where
  names : (m.functions.map (·.name)).Nodup
  calls : CallsEarlier [] m.functions
  entryPoints : ∀ e ∈ m.entryPoints, ∃ f ∈ m.functions,
    f.name = e.function ∧ f.params = [] ∧ f.results = []

/-! ## Lists of functions -/

theorem CallsEarlier.append {before fs gs : List Function} (h : CallsEarlier before fs)
    (h' : CallsEarlier (before ++ fs) gs) : CallsEarlier before (fs ++ gs) := by
  intro pre f post heq c hc
  rcases List.append_eq_append_iff.mp heq with ⟨mid, rfl, hgs⟩ | ⟨mid, rfl, hpost⟩
  · rw [← List.append_assoc]
    exact h' mid f post hgs c hc
  · cases mid with
    | nil =>
        rw [List.append_nil] at h'
        exact h' [] f post hpost.symm c hc |>.imp fun t ht => ⟨by simpa using ht.1, ht.2⟩
    | cons x mid =>
        rw [List.cons_append, List.cons.injEq] at hpost
        obtain ⟨rfl, -⟩ := hpost
        exact h pre f mid rfl c hc

/-- Functions that call only what stands in front of all of them. -/
theorem callsEarlier_of_forall {before fs : List Function}
    (h : ∀ f ∈ fs, ∀ c ∈ f.calls, ∃ t ∈ before, t.Serves c) : CallsEarlier before fs := by
  rintro pre f post rfl c hc
  obtain ⟨t, ht, hserves⟩ := h f (List.mem_append_right _ List.mem_cons_self) c hc
  exact ⟨t, List.mem_append_left _ ht, hserves⟩

/-! ## Look-ups -/

namespace Module

variable {m : Module}

theorem eq_of_name (h : (m.functions.map (·.name)).Nodup) {i j : Nat} {f g : Function}
    (hi : m.functions[i]? = some f) (hj : m.functions[j]? = some g) (hname : f.name = g.name) :
    i = j := by
  obtain ⟨hlt, rfl⟩ := List.getElem?_eq_some_iff.mp hi
  obtain ⟨hlt', rfl⟩ := List.getElem?_eq_some_iff.mp hj
  refine (@List.Nodup.getElem_inj_iff _ _ h i (by rwa [List.length_map]) j
    (by rwa [List.length_map])).mp ?_
  rw [List.getElem_map, List.getElem_map, hname]

/-- A name is found where it stands. -/
theorem place?_of_names (h : (m.functions.map (·.name)).Nodup) {i : Nat} {f : Function}
    (hi : m.functions[i]? = some f) : m.place? f.name = some i := by
  have hmem : (f, i) ∈ m.functions.zipIdx.reverse := by
    rw [List.mem_reverse, List.mk_mem_zipIdx_iff_getElem?]
    exact hi
  unfold place?
  cases hfind : m.functions.zipIdx.reverse.find? fun x => x.1.name == f.name with
  | none =>
      have hnot := List.find?_eq_none.mp hfind (f, i) hmem
      exact absurd (beq_self_eq_true _) hnot
  | some x =>
      obtain ⟨f', j⟩ := x
      have hj : m.functions[j]? = some f' := by
        have hx := List.mem_of_find?_eq_some hfind
        rw [List.mem_reverse, List.mk_mem_zipIdx_iff_getElem?] at hx
        exact hx
      have hname := List.find?_some hfind
      rw [beq_iff_eq] at hname
      rw [Option.map_some, eq_of_name h hj hi hname]

theorem function?_of_names (h : (m.functions.map (·.name)).Nodup) {f : Function}
    (hf : f ∈ m.functions) : m.function? f.name = some f := by
  unfold function?
  cases hfind : m.functions.reverse.find? (·.name == f.name) with
  | none =>
      have hnot := List.find?_eq_none.mp hfind f (List.mem_reverse.mpr hf)
      exact absurd (beq_self_eq_true _) hnot
  | some f' =>
      obtain ⟨i, hi⟩ := List.mem_iff_getElem?.mp hf
      obtain ⟨j, hj⟩ := List.mem_iff_getElem?.mp (List.mem_reverse.mp (List.mem_of_find?_eq_some hfind))
      have hname := List.find?_some hfind
      rw [beq_iff_eq] at hname
      obtain rfl := eq_of_name h hj hi hname
      rw [hj] at hi
      exact hi

/-! ## Validation -/

theorem adjacent_ne {names : List String} (h : names.Nodup) :
    ((names.zip (names.drop 1)).all fun x => x.1 != x.2) = true := by
  induction names with
  | nil => rfl
  | cons a names ih =>
      cases names with
      | nil => rfl
      | cons b names =>
          rw [List.nodup_cons] at h
          have hne : a ≠ b := fun heq => h.1 (heq ▸ List.mem_cons_self)
          change ((a != b) && ((b :: names).zip ((b :: names).drop 1)).all fun x => x.1 != x.2) = true
          rw [ih h.2, Bool.and_true]
          exact bne_iff_ne.mpr hne

theorem namesDistinct_of_nodup (h : (m.functions.map (·.name)).Nodup) : m.namesDistinct = true := by
  have hsorted : ((m.functions.map (·.name)).mergeSort (· ≤ ·)).Nodup :=
    (List.mergeSort_perm ..).nodup_iff.mpr h
  exact adjacent_ne hsorted

theorem Legal.callFault? (h : m.Legal) {i : Nat} {f : Function} (hi : m.functions[i]? = some f)
    {c : CallSite} (hc : c ∈ f.calls) : m.callFault? i f c = none := by
  obtain ⟨hlt, hget⟩ := List.getElem?_eq_some_iff.mp hi
  have hsplit : m.functions = m.functions.take i ++ f :: m.functions.drop (i + 1) := by
    rw [← hget, List.getElem_cons_drop, List.take_append_drop]
  obtain ⟨t, ht, hserves⟩ := h.calls _ f _ hsplit c hc
  rw [List.nil_append] at ht
  obtain ⟨j, hj⟩ := List.mem_iff_getElem?.mp ht
  have hlt' : j < i := by
    have := (List.getElem?_eq_some_iff.mp hj).1
    rw [List.length_take] at this
    omega
  rw [List.getElem?_take_of_lt hlt'] at hj
  have hplace := place?_of_names h.names hj
  rw [hserves.name] at hplace
  unfold Module.callFault?
  rw [hplace]
  dsimp only
  rw [if_neg (by omega), hj]
  simp [hserves.args, hserves.results]

theorem Legal.entryFault? (h : m.Legal) {e : EntryPoint} (he : e ∈ m.entryPoints) :
    m.entryFault? e = none := by
  obtain ⟨f, hf, hname, hparams, hresults⟩ := h.entryPoints e he
  have hfind := function?_of_names h.names hf
  rw [hname] at hfind
  unfold Module.entryFault?
  rw [hfind]
  simp [hparams, hresults]

/-- A legal module passes validation. -/
theorem Legal.validate (h : m.Legal) : m.validate = .ok () := by
  have hcalls : m.callFaults = [] := by
    refine List.flatMap_eq_nil_iff.mpr fun x hx => List.filterMap_eq_nil_iff.mpr fun c hc => ?_
    obtain ⟨f, i⟩ := x
    exact h.callFault? (List.mk_mem_zipIdx_iff_getElem?.mp hx) hc
  have hentries : m.entryPoints.filterMap m.entryFault? = [] :=
    List.filterMap_eq_nil_iff.mpr fun e he => h.entryFault? he
  unfold Module.validate
  rw [namesDistinct_of_nodup h.names, hcalls, hentries]
  rfl

/-- In order, and different from their neighbours, names are different. -/
theorem nodup_of_adjacent {names : List String} (hsorted : names.Pairwise (· ≤ ·))
    (h : ((names.zip (names.drop 1)).all fun x => x.1 != x.2) = true) : names.Nodup := by
  induction names with
  | nil => exact .nil
  | cons a names ih =>
      obtain ⟨hleast, hsorted⟩ := List.pairwise_cons.mp hsorted
      cases names with
      | nil => exact List.nodup_singleton a
      | cons b names =>
          rw [List.drop_one, List.tail_cons, List.zip_cons_cons, List.all_cons,
            Bool.and_eq_true] at h
          have hnext : a ≠ b := by simpa using h.1
          refine List.nodup_cons.mpr ⟨fun hmem => hnext ?_, ih hsorted (by simpa using h.2)⟩
          rcases List.mem_cons.mp hmem with heq | hmem
          · exact heq
          · have hle := (List.pairwise_cons.mp hsorted).1 a hmem
            exact le_antisymm (hleast b List.mem_cons_self) hle

theorem nodup_of_namesDistinct (h : m.namesDistinct = true) :
    (m.functions.map (·.name)).Nodup := by
  have hsorted := @List.pairwise_mergeSort _ (fun a b : String => decide (a ≤ b))
    (fun a b c hab hbc => by simp only [decide_eq_true_eq] at *; exact le_trans hab hbc)
    (fun a b => by simp only [Bool.or_eq_true, decide_eq_true_eq]; exact le_total a b)
    (m.functions.map (·.name))
  have hnodup := nodup_of_adjacent (hsorted.imp fun h => of_decide_eq_true h) h
  exact (List.mergeSort_perm _ _).nodup_iff.mp hnodup

/-- Names that are used twice are what validation looks for first. -/
theorem validate_of_not_nodup (h : ¬(m.functions.map (·.name)).Nodup) :
    m.validate = .error (.plain "duplicate function names") := by
  have hnot : m.namesDistinct = false :=
    Bool.eq_false_iff.mpr fun hdistinct => h (nodup_of_namesDistinct hdistinct)
  rw [validate, hnot]
  rfl

theorem nodup_of_validate (h : m.validate = .ok ()) : (m.functions.map (·.name)).Nodup := by
  by_contra hnot
  rw [validate_of_not_nodup hnot] at h
  cases h

/-! ## No cycles -/

/-- A function with one name has a call of a function with another. -/
def Calls (m : Module) (name target : String) : Prop :=
  ∃ f ∈ m.functions, f.name = name ∧ ∃ c ∈ f.calls, c.func = target

theorem Legal.idxOf_lt (h : m.Legal) {name target : String} (hcalls : m.Calls name target) :
    (m.functions.map (·.name)).idxOf target < (m.functions.map (·.name)).idxOf name := by
  obtain ⟨f, hf, rfl, c, hc, rfl⟩ := hcalls
  obtain ⟨pre, post, hsplit⟩ := List.append_of_mem hf
  obtain ⟨t, ht, hserves⟩ := h.calls pre f post hsplit c hc
  rw [List.nil_append] at ht
  have hnot : f.name ∉ pre.map (·.name) := by
    have hnodup := h.names
    rw [hsplit, List.map_append, List.map_cons, List.nodup_append] at hnodup
    exact fun hmem => hnodup.2.2 _ hmem _ List.mem_cons_self rfl
  have hmem : c.func ∈ pre.map (·.name) := List.mem_map.mpr ⟨t, ht, hserves.name⟩
  rw [hsplit, List.map_append, List.map_cons, List.idxOf_append_of_mem hmem,
    List.idxOf_append_of_notMem hnot]
  have := List.idxOf_lt_length_of_mem hmem
  omega

/-- No function calls itself, directly or through others. -/
theorem Legal.acyclic (h : m.Legal) (name : String) : ¬Relation.TransGen m.Calls name name := by
  have hlt {a b : String} (hab : Relation.TransGen m.Calls a b) :
      (m.functions.map (·.name)).idxOf b < (m.functions.map (·.name)).idxOf a := by
    induction hab with
    | single hstep => exact h.idxOf_lt hstep
    | tail _ hstep ih => exact (h.idxOf_lt hstep).trans ih
  exact fun hcycle => Nat.lt_irrefl _ (hlt hcycle)

end Module

end WasmShader.Shader
