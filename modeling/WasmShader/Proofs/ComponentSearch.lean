import WasmShader.Proofs.CallComponents

/-!
# The search finds the components

The functions whose visits are under way form a path of calls. Everything that waits can be
reached from the functions on the path that have waited longer, and reaches one of them
(`Search.Valid`). So when a visit ends, the function and what waits above it reach each other. They
are a whole component if no call leads from them to what waits below, which is what the lowest
number tells; otherwise the function reaches something that has waited longer, and goes on waiting.
-/

namespace WasmShader.CallGraph

namespace Search

variable {g : CallGraph}

/-- The function has been visited. -/
def Seen (s : Search) (fn : Nat) : Prop := (s.number? fn).isSome = true

/-- The number of a function that has been visited. -/
def num (s : Search) (fn : Nat) : Nat := (s.number? fn).getD 0

/-- The component of the function has been found. -/
def Done (s : Search) (fn : Nat) : Prop := ∃ c ∈ s.found, fn ∈ c

theorem seen_of_number? {s : Search} {fn n : Nat} (h : s.number? fn = some n) :
    s.Seen fn ∧ s.num fn = n := by
  rw [Seen, num, h]
  exact ⟨rfl, rfl⟩

theorem not_seen_of_number? {s : Search} {fn : Nat} (h : s.number? fn = none) : ¬ s.Seen fn := by
  rw [Seen, h]
  exact Bool.false_ne_true

/-! ## States of the search -/

/-- While the functions of `path` are visited, the latest first. -/
structure Valid (g : CallGraph) (path : List Nat) (s : Search) : Prop where
  nodes : ∀ x, s.Seen x → x ∈ g.nodes
  seen : ∀ x, s.Seen x ↔ x ∈ s.stack ∨ s.Done x
  apart : ∀ x ∈ s.stack, ¬ s.Done x
  below : ∀ x, s.Seen x → s.num x < s.next
  falling : s.stack.Pairwise fun a b => s.num b < s.num a
  nodup : s.found.flatten.Nodup
  nonempty : ∀ c ∈ s.found, c ≠ []
  component : ∀ c ∈ s.found, ∀ x ∈ c, ∀ y, y ∈ c ↔ g.Calls x y ∧ g.Calls y x
  calls : ∀ x, s.Done x → ∀ y ∈ g.callees x, s.Done y
  waits : path ⊆ s.stack
  ended : ∀ x ∈ s.stack, x ∉ path → ∀ y ∈ g.callees x, s.Seen y
  back : ∀ y ∈ s.stack, ∃ x ∈ path, s.num x ≤ s.num y ∧ g.Calls y x
  forth : ∀ x ∈ path, ∀ y ∈ s.stack, s.num x ≤ s.num y → g.Calls x y
  kept : s.lost = false

/-- More has been visited: `above` waits on top of what waited before. -/
structure Grows (s : Search) (above : List Nat) (s' : Search) : Prop where
  stack : s'.stack = above ++ s.stack
  kept : ∀ x, s.Seen x → s'.number? x = s.number? x
  fresh : ∀ x ∈ above, ¬ s.Seen x
  later : ∀ x, s'.Seen x → s.Seen x ∨ s.next ≤ s'.num x
  done : ∀ x, s.Done x → s'.Done x

section Grows

variable {s s' s'' : Search} {above above' path : List Nat} {x fn : Nat}

theorem Grows.seen (h : s.Grows above s') (hx : s.Seen x) : s'.Seen x := by
  rw [Seen, h.kept x hx]
  exact hx

theorem Grows.num (h : s.Grows above s') (hx : s.Seen x) : s'.num x = s.num x := by
  rw [Search.num, h.kept x hx, Search.num]

theorem Grows.trans (h : s.Grows above s') (h' : s'.Grows above' s'')
    (hnext : s.next ≤ s'.next) : s.Grows (above' ++ above) s'' := by
  refine ⟨?_, fun x hx => ?_, fun x hx hseen => ?_, fun x hx => ?_, fun x hx => h'.done x (h.done x hx)⟩
  · rw [h'.stack, h.stack, List.append_assoc]
  · rw [h'.kept x (h.seen hx), h.kept x hx]
  · rcases List.mem_append.mp hx with hx | hx
    · exact h'.fresh x hx (h.seen hseen)
    · exact h.fresh x hx hseen
  · rcases h'.later x hx with hx | hx
    · rw [h'.num hx]
      exact h.later x hx
    · exact .inr (Nat.le_trans hnext hx)

theorem Valid.done_calls (h : s.Valid g path) {y : Nat} (hx : s.Done x) (hcalls : g.Calls x y) :
    s.Done y := by
  induction hcalls with
  | refl => exact hx
  | tail _ hstep ih => exact h.calls _ ih _ hstep

theorem Valid.seen_of_mem (h : s.Valid g path) (hx : x ∈ s.stack) : s.Seen x :=
  (h.seen x).mpr (.inl hx)

/-! ## The start of a visit -/

theorem number?_push (s : Search) (fn x : Nat) :
    (s.push fn).number? x = if x = fn then some s.next else s.number? x := by
  change ((fn, s.next) :: s.numbers).lookup x = _
  rw [List.lookup_cons]
  by_cases hx : x = fn
  · rw [if_pos hx, hx, beq_self_eq_true]
  · rw [if_neg hx, beq_eq_false_iff_ne.mpr hx]
    rfl

theorem number?_push_self (s : Search) (fn : Nat) : (s.push fn).number? fn = some s.next := by
  rw [number?_push, if_pos rfl]

theorem number?_push_of_ne (s : Search) (h : x ≠ fn) :
    (s.push fn).number? x = s.number? x := by
  rw [number?_push, if_neg h]

theorem grows_push (hnew : ¬ s.Seen fn) : s.Grows [fn] (s.push fn) := by
  refine ⟨rfl, fun x hx => number?_push_of_ne s fun heq => hnew (heq ▸ hx), fun x hx => ?_,
    fun x hx => ?_, fun x hx => hx⟩
  · rw [List.mem_singleton.mp hx]
    exact hnew
  · by_cases heq : x = fn
    · subst heq
      rw [(seen_of_number? (number?_push_self s x)).2]
      exact .inr (Nat.le_refl _)
    · rw [Seen, number?_push_of_ne s heq] at hx
      exact .inl hx

theorem Valid.push (h : s.Valid g path) (hnew : ¬ s.Seen fn) (hnode : fn ∈ g.nodes)
    (hpath : ∀ x ∈ path, g.Calls x fn) : (s.push fn).Valid g (fn :: path) := by
  have hgrows := grows_push hnew
  obtain ⟨hseen, hnum⟩ := seen_of_number? (number?_push_self s fn)
  have hold (x : Nat) (hx : (s.push fn).Seen x) : x = fn ∨ s.Seen x := by
    refine or_iff_not_imp_left.mpr fun hne => ?_
    rwa [Seen, number?_push_of_ne s hne] at hx
  have hlt (x : Nat) (hx : x ∈ s.stack) : (s.push fn).num x < s.next := by
    rw [hgrows.num (h.seen_of_mem hx)]
    exact h.below x (h.seen_of_mem hx)
  refine
    { nodes := fun x hx => ?_
      seen := fun x => ⟨fun hx => ?_, fun hx => ?_⟩
      apart := ?_
      below := fun x hx => ?_
      falling := ?_
      nodup := h.nodup
      nonempty := h.nonempty
      component := h.component
      calls := h.calls
      waits := List.cons_subset_cons fn h.waits
      ended := fun x hx hout y hy => ?_
      back := fun y hy => ?_
      forth := fun x hx y hy hle => ?_
      kept := h.kept }
  · rcases hold x hx with rfl | hx
    · exact hnode
    · exact h.nodes x hx
  · rcases hold x hx with rfl | hx
    · exact .inl List.mem_cons_self
    · exact ((h.seen x).mp hx).imp_left (List.mem_cons_of_mem fn)
  · rcases hx with hx | hx
    · rcases List.mem_cons.mp hx with rfl | hx
      · exact hseen
      · exact hgrows.seen (h.seen_of_mem hx)
    · exact hgrows.seen ((h.seen x).mpr (.inr hx))
  · refine List.forall_mem_cons.mpr ⟨fun hdone => hnew ((h.seen fn).mpr (.inr hdone)), h.apart⟩
  · change _ < s.next + 1
    rcases hold x hx with rfl | hx
    · omega
    · rw [hgrows.num hx]
      have := h.below x hx
      omega
  · refine List.pairwise_cons.mpr ⟨fun x hx => ?_, h.falling.imp_of_mem fun {a b} ha hb hlt => ?_⟩
    · rw [hnum]
      exact hlt x hx
    · rwa [hgrows.num (h.seen_of_mem ha), hgrows.num (h.seen_of_mem hb)]
  · obtain ⟨hne, hout⟩ := not_or.mp (mt List.mem_cons.mpr hout)
    exact hgrows.seen (h.ended x ((List.mem_cons.mp hx).resolve_left hne) hout y hy)
  · rcases List.mem_cons.mp hy with rfl | hy
    · exact ⟨y, List.mem_cons_self, Nat.le_refl _, .refl⟩
    · obtain ⟨x, hx, hle, hcalls⟩ := h.back y hy
      refine ⟨x, List.mem_cons_of_mem fn hx, ?_, hcalls⟩
      rwa [hgrows.num (h.seen_of_mem (h.waits hx)), hgrows.num (h.seen_of_mem hy)]
  · rcases List.mem_cons.mp hy with rfl | hwaits
    · rcases List.mem_cons.mp hx with rfl | hx
      · exact .refl
      · exact hpath x hx
    · have hnum' := hlt y hwaits
      rcases List.mem_cons.mp hx with rfl | hx
      · omega
      · rw [hgrows.num (h.seen_of_mem (h.waits hx)), hgrows.num (h.seen_of_mem hwaits)] at hle
        exact h.forth x hx y hwaits hle

end Grows

/-! ## The end of a visit -/

section End

variable {s : Search} {path above rest : List Nat} {fn : Nat}

theorem stack_close (hstack : s.stack = above ++ fn :: rest) (hnot : fn ∉ above) :
    (s.close fn).stack = rest ∧ (s.close fn).found = s.found ++ [above ++ [fn]]
      ∧ (s.close fn).lost = s.lost := by
  have hall : ∀ x ∈ above, (x != fn) = true := by
    intro x hx
    rw [bne_iff_ne]
    rintro rfl
    exact hnot hx
  have hself : (fn != fn) = false := bne_self_eq_false fn
  have hwaits : (above ++ fn :: rest).contains fn = true :=
    List.contains_iff_mem.mpr (List.mem_append_right _ List.mem_cons_self)
  rw [close, hstack, List.dropWhile_append_of_pos hall, List.takeWhile_append_of_pos hall,
    List.dropWhile_cons_of_neg (by rw [hself]; exact Bool.false_ne_true),
    List.takeWhile_cons_of_neg (by rw [hself]; exact Bool.false_ne_true), hwaits, Bool.not_true,
    Bool.or_false]
  exact ⟨rfl, by rw [List.append_nil], rfl⟩

theorem Valid.nodup_stack (h : s.Valid g path) : s.stack.Nodup :=
  h.falling.imp fun hlt heq => absurd (heq ▸ hlt) (Nat.lt_irrefl _)

/-- What waits above a function has a higher number, and what waits below it a lower one. -/
theorem Valid.num_lt (h : s.Valid g path) (hstack : s.stack = above ++ fn :: rest) :
    (∀ x ∈ above, s.num fn < s.num x) ∧ ∀ x ∈ rest, s.num x < s.num fn := by
  have hfalling := h.falling
  rw [hstack, List.pairwise_append, List.pairwise_cons] at hfalling
  exact ⟨fun x hx => hfalling.2.2 x hx fn List.mem_cons_self, hfalling.2.1.1⟩

/-- What waits down to the function reaches it and can be reached from it. -/
theorem Valid.together (h : s.Valid g (fn :: path)) (hstack : s.stack = above ++ fn :: rest)
    (hpath : path ⊆ rest) {x : Nat} (hx : x ∈ above ++ [fn]) : g.Calls fn x ∧ g.Calls x fn := by
  obtain ⟨habove, hrest⟩ := h.num_lt hstack
  have hwaits : x ∈ s.stack := by
    rw [hstack, List.append_cons]
    exact List.mem_append_left rest hx
  have hle : s.num fn ≤ s.num x := by
    rcases List.mem_append.mp hx with hx | hx
    · exact Nat.le_of_lt (habove x hx)
    · rw [List.mem_singleton.mp hx]
  have hfn : fn ∈ s.stack := h.waits List.mem_cons_self
  refine ⟨h.forth fn List.mem_cons_self x hwaits hle, ?_⟩
  obtain ⟨y, hy, -, hcalls⟩ := h.back x hwaits
  rcases List.mem_cons.mp hy with rfl | hy
  · exact hcalls
  · have hlt := hrest y (hpath hy)
    exact hcalls.trans (h.forth y (List.mem_cons_of_mem fn hy) fn hfn (Nat.le_of_lt hlt))

/-- If no call leads further down the stack, what waits down to the function is a component. -/
theorem Valid.close (h : s.Valid g (fn :: path)) (hstack : s.stack = above ++ fn :: rest)
    (hpath : path ⊆ rest) (hcallees : ∀ y ∈ g.callees fn, s.Seen y)
    (hlow : ∀ x ∈ above ++ [fn], ∀ y ∈ g.callees x, y ∈ s.stack → s.num fn ≤ s.num y) :
    (s.close fn).Valid g path := by
  obtain ⟨habove, hrest⟩ := h.num_lt hstack
  have hnodup := h.nodup_stack
  rw [hstack, List.append_cons] at hnodup
  obtain ⟨hnodupComp, hnodupRest, hdisjoint⟩ := List.nodup_append.mp hnodup
  have hnot : fn ∉ above := fun hmem => Nat.lt_irrefl _ (habove fn hmem)
  obtain ⟨hstack', hfound, hlost⟩ := stack_close hstack hnot
  have hwaits {x : Nat} (hx : x ∈ above ++ [fn]) : x ∈ s.stack := by
    rw [hstack, List.append_cons]
    exact List.mem_append_left rest hx
  have hbelow {x : Nat} (hx : x ∈ rest) : x ∈ s.stack := by
    rw [hstack]
    exact List.mem_append_right above (List.mem_cons_of_mem fn hx)
  have hdone (x : Nat) : (s.close fn).Done x ↔ s.Done x ∨ x ∈ above ++ [fn] := by
    unfold Done
    rw [hfound]
    simp only [List.mem_append (s := s.found), List.mem_singleton (b := above ++ [fn]), or_and_right,
      exists_or, exists_eq_left]
  -- The calls of the component stay in it, or lead to components that have been found.
  have hstays (x : Nat) (hx : x ∈ above ++ [fn]) (y : Nat) (hy : y ∈ g.callees x) :
      y ∈ above ++ [fn] ∨ s.Done y := by
    have hseen : s.Seen y := by
      rcases List.mem_append.mp hx with hin | hin
      · have hne : x ∉ fn :: path := by
          rw [List.mem_cons, not_or]
          refine ⟨fun heq => hnot (heq ▸ hin), fun hmem => ?_⟩
          exact hdisjoint x hx x (hpath hmem) rfl
        exact h.ended x (hwaits hx) hne y hy
      · rw [List.mem_singleton.mp hin] at hy
        exact hcallees y hy
    refine ((h.seen y).mp hseen).imp_left fun hin => ?_
    have hle := hlow x hx y hy hin
    rw [hstack, List.append_cons] at hin
    refine (List.mem_append.mp hin).resolve_right fun hmem => ?_
    have := hrest y hmem
    omega
  refine
    { nodes := h.nodes
      seen := fun x => ?_
      apart := fun x hx => ?_
      below := h.below
      falling := ?_
      nodup := ?_
      nonempty := ?_
      component := ?_
      calls := fun x hx y hy => ?_
      waits := hstack' ▸ hpath
      ended := fun x hx hout y hy => ?_
      back := fun y hy => ?_
      forth := fun x hx y hy hle => ?_
      kept := hlost.trans h.kept }
  · rw [hdone, hstack']
    change s.Seen x ↔ _
    rw [h.seen, hstack, List.append_cons, List.mem_append, or_comm (a := x ∈ above ++ [fn]),
      or_assoc, or_comm (a := x ∈ above ++ [fn])]
  · rw [hstack'] at hx
    rw [hdone, not_or]
    exact ⟨h.apart x (hbelow hx), fun hin => hdisjoint x hin x hx rfl⟩
  · rw [hstack']
    exact (List.pairwise_append.mp (hstack ▸ h.falling)).2.1.of_cons
  · rw [hfound, List.flatten_append, List.flatten_singleton, List.nodup_append]
    refine ⟨h.nodup, hnodupComp, fun x hx y hy heq => ?_⟩
    obtain ⟨c, hc, hxc⟩ := List.mem_flatten.mp hx
    exact h.apart y (hwaits hy) ⟨c, hc, heq ▸ hxc⟩
  · rw [hfound]
    refine List.forall_mem_append.mpr ⟨h.nonempty, fun c hc => ?_⟩
    rw [List.mem_singleton.mp hc]
    exact List.append_ne_nil_of_right_ne_nil _ (List.cons_ne_nil fn [])
  · rw [hfound]
    refine List.forall_mem_append.mpr ⟨h.component, fun c hc x hx y => ?_⟩
    rw [List.mem_singleton.mp hc] at hx ⊢
    obtain ⟨hto, hback⟩ := h.together hstack hpath hx
    constructor
    · intro hy
      obtain ⟨hto', hback'⟩ := h.together hstack hpath hy
      exact ⟨hback.trans hto', hback'.trans hto⟩
    · rintro ⟨hthere, hhere⟩
      have hreached : y ∈ above ++ [fn] ∨ s.Done y := by
        clear hhere
        induction hthere with
        | refl => exact .inl hx
        | tail _ hstep ih =>
            rcases ih with hin | hin
            · exact hstays _ hin _ hstep
            · exact .inr (h.calls _ hin _ hstep)
      exact hreached.resolve_right fun hin => h.apart x (hwaits hx) (h.done_calls hin hhere)
  · rw [hdone] at hx ⊢
    rcases hx with hx | hx
    · exact .inl (h.calls x hx y hy)
    · exact (hstays x hx y hy).symm
  · rw [hstack'] at hx
    refine h.ended x (hbelow hx) ?_ y hy
    rw [List.mem_cons, not_or]
    refine ⟨?_, hout⟩
    rintro rfl
    exact Nat.lt_irrefl _ (hrest x hx)
  · rw [hstack'] at hy
    obtain ⟨x, hx, hle, hcalls⟩ := h.back y (hbelow hy)
    rcases List.mem_cons.mp hx with rfl | hx
    · have hlt := hrest y hy
      exact absurd hle (Nat.not_le_of_lt hlt)
    · exact ⟨x, hx, hle, hcalls⟩
  · rw [hstack'] at hy
    exact h.forth x (List.mem_cons_of_mem fn hx) y (hbelow hy) hle

/-- A function that reaches something that has waited longer goes on waiting. -/
theorem Valid.leave (h : s.Valid g (fn :: path)) (hcallees : ∀ y ∈ g.callees fn, s.Seen y) {y : Nat}
    (hy : y ∈ s.stack) (hlt : s.num y < s.num fn) (hcalls : g.Calls fn y) : s.Valid g path := by
  refine { h with
    waits := fun x hx => h.waits (List.mem_cons_of_mem fn hx)
    ended := fun x hx hout => ?_
    back := fun z hz => ?_
    forth := fun x hx => h.forth x (List.mem_cons_of_mem fn hx) }
  · by_cases heq : x = fn
    · rw [heq]
      exact hcallees
    · exact h.ended x hx (by rw [List.mem_cons, not_or]; exact ⟨heq, hout⟩)
  · obtain ⟨x, hx, hle, hreaches⟩ := h.back z hz
    rcases List.mem_cons.mp hx with rfl | hx
    · obtain ⟨x', hx', hle', hreaches'⟩ := h.back y hy
      rcases List.mem_cons.mp hx' with rfl | hx'
      · omega
      · exact ⟨x', hx', by omega, hreaches.trans (hcalls.trans hreaches')⟩
    · exact ⟨x, hx, hle, hreaches⟩

end End

/-! ## Visits -/

/-- The functions that have not been visited. -/
def unseen (g : CallGraph) (s : Search) : Nat := (g.nodes.filter fun x => (s.number? x).isNone).length

/-- What the visit of a function leads to. Nothing that now waits on top calls below the number that
it gives, and that number is of something that the function reaches, unless it is too high to
count. -/
structure Visited (g : CallGraph) (path : List Nat) (fn : Nat) (s : Search) (low : Nat)
    (above : List Nat) (s' : Search) : Prop where
  valid : s'.Valid g path
  grows : s.Grows above s'
  next : s.next ≤ s'.next
  seen : s'.Seen fn
  low_le : low ≤ s'.num fn
  lowest : ∀ x ∈ above, ∀ y ∈ g.callees x, y ∈ s'.stack → low ≤ s'.num y
  reached : s.next ≤ low ∨ ∃ y ∈ s'.stack, s'.num y = low ∧ g.Calls fn y

/-- In the visit of a function that was started in `s`, when the functions of `met` that it calls
have been looked at. -/
structure Meeting (g : CallGraph) (path : List Nat) (fn : Nat) (s : Search) (met : List Nat)
    (low : Nat) (above : List Nat) (s' : Search) : Prop where
  valid : s'.Valid g (fn :: path)
  before : path ⊆ s.stack
  grows : s.Grows (above ++ [fn]) s'
  next : s.next ≤ s'.next
  number : s'.num fn = s.next
  low_le : low ≤ s.next
  met : ∀ y ∈ met, s'.Seen y ∧ (y ∈ s'.stack → low ≤ s'.num y)
  lowest : ∀ x ∈ above, ∀ y ∈ g.callees x, y ∈ s'.stack → low ≤ s'.num y
  reached : ∃ y ∈ s'.stack, s'.num y = low ∧ g.Calls fn y

section Visits

variable {s s' : Search} {path met above : List Nat} {fn low : Nat}

theorem Grows.unseen_le (h : s.Grows above s') : s'.unseen g ≤ s.unseen g := by
  refine (List.monotone_filter_right g.nodes fun x hx => ?_).length_le
  rw [Option.isNone_iff_eq_none] at hx ⊢
  by_contra hseen
  have hkept := h.kept x (Option.isSome_iff_ne_none.mpr hseen)
  exact hseen (hkept.symm.trans hx)

theorem unseen_push (hnew : ¬ s.Seen fn) (hnode : fn ∈ g.nodes) :
    (s.push fn).unseen g < s.unseen g := by
  have hsplit : g.nodes.filter (fun x => ((s.push fn).number? x).isNone)
      = (g.nodes.filter fun x => (s.number? x).isNone).filter (· != fn) := by
    rw [List.filter_filter]
    refine List.filter_congr fun x _ => ?_
    by_cases heq : x = fn
    · rw [heq, number?_push_self, bne_self_eq_false]
      rfl
    · rw [number?_push_of_ne s heq, bne_iff_ne.mpr heq, Bool.true_and]
  rw [unseen, hsplit]
  refine List.length_filter_lt_length_iff_exists.mpr ⟨fn, List.mem_filter.mpr ⟨hnode, ?_⟩, ?_⟩
  · rw [Option.isNone_iff_eq_none]
    by_contra hseen
    exact hnew (Option.isSome_iff_ne_none.mpr hseen)
  · rw [bne_self_eq_false]
    exact Bool.false_ne_true

theorem Valid.meeting (h : s.Valid g path) (hnew : ¬ s.Seen fn) (hnode : fn ∈ g.nodes)
    (hpath : ∀ x ∈ path, g.Calls x fn) :
    Meeting g path fn s [] s.next [] (s.push fn) := by
  have hnum := (seen_of_number? (number?_push_self s fn)).2
  exact
    { valid := h.push hnew hnode hpath
      before := h.waits
      grows := grows_push hnew
      next := Nat.le_succ _
      number := hnum
      low_le := Nat.le_refl _
      met := fun y hy => absurd hy List.not_mem_nil
      lowest := fun x hx => absurd hx List.not_mem_nil
      reached := ⟨fn, List.mem_cons_self, hnum, .refl⟩ }

/-- In the visit of a function, the stack has the function where its visit began. -/
theorem Meeting.stack (h : Meeting g path fn s met low above s') :
    s'.stack = above ++ fn :: s.stack := by
  rw [h.grows.stack, List.append_assoc, List.singleton_append]

/-- No visit is under way of what has been visited in the visit of a function. -/
theorem Meeting.not_mem_path (h : Meeting g path fn s met low above s') {x : Nat}
    (hx : x ∈ above) : x ∉ fn :: path := by
  have hnodup := h.valid.nodup_stack
  rw [h.stack, List.nodup_append] at hnodup
  intro hmem
  refine hnodup.2.2 x hx x ?_ rfl
  rcases List.mem_cons.mp hmem with rfl | hmem
  · exact List.mem_cons_self
  · exact List.mem_cons_of_mem fn (h.before hmem)

/-- Looking at a function that has been visited. -/
theorem Meeting.seen (h : Meeting g path fn s met low above s') {c n : Nat}
    (hc : c ∈ g.callees fn) (hn : s'.number? c = some n) :
    Meeting g path fn s (met ++ [c]) (if s'.stack.contains c then min low n else low) above s' := by
  obtain ⟨hseen, hnum⟩ := seen_of_number? hn
  have hle : (if s'.stack.contains c then min low n else low) ≤ low := by
    split
    · exact Nat.min_le_left low n
    · exact Nat.le_refl low
  have hlow : c ∈ s'.stack → (if s'.stack.contains c then min low n else low) ≤ s'.num c := by
    intro hin
    rw [if_pos (List.contains_iff_mem.mpr hin), hnum]
    exact Nat.min_le_right low n
  refine { h with
    low_le := Nat.le_trans hle h.low_le
    met := fun y hy => ?_
    lowest := fun x hx y hy hin => Nat.le_trans hle (h.lowest x hx y hy hin)
    reached := ?_ }
  · rcases List.mem_append.mp hy with hy | hy
    · exact ⟨(h.met y hy).1, fun hin => Nat.le_trans hle ((h.met y hy).2 hin)⟩
    · rw [List.mem_singleton.mp hy]
      exact ⟨hseen, hlow⟩
  · by_cases hin : c ∈ s'.stack
    · rw [if_pos (List.contains_iff_mem.mpr hin)]
      rcases Nat.le_total low n with hmin | hmin
      · rw [Nat.min_eq_left hmin]
        exact h.reached
      · rw [Nat.min_eq_right hmin]
        exact ⟨c, hin, hnum, .single hc⟩
    · rw [if_neg (mt List.contains_iff_mem.mp hin)]
      exact h.reached

/-- Looking at a function that has been visited in between. -/
theorem Meeting.visited (h : Meeting g path fn s met low above s') {c low' : Nat}
    {above' : List Nat} {s'' : Search} (hc : c ∈ g.callees fn)
    (hv : Visited g (fn :: path) c s' low' above' s'') :
    Meeting g path fn s (met ++ [c]) (min low low') (above' ++ above) s'' := by
  have hfn : s'.Seen fn := h.valid.seen_of_mem (h.valid.waits List.mem_cons_self)
  have hstack : s''.stack = above' ++ s'.stack := hv.grows.stack
  -- What has been visited before waits now only if it has waited before.
  have hold {y : Nat} (hseen : s'.Seen y) (hin : y ∈ s''.stack) : y ∈ s'.stack := by
    rw [hstack] at hin
    exact (List.mem_append.mp hin).resolve_left fun hmem => hv.grows.fresh y hmem hseen
  have hmin : min low low' ≤ low := Nat.min_le_left low low'
  exact
    { valid := hv.valid
      before := h.before
      grows := by
        rw [List.append_assoc]
        exact h.grows.trans hv.grows h.next
      next := Nat.le_trans h.next hv.next
      number := by rw [hv.grows.num hfn, h.number]
      low_le := Nat.le_trans hmin h.low_le
      met := fun y hy => by
        rcases List.mem_append.mp hy with hy | hy
        · obtain ⟨hseen, hlow⟩ := h.met y hy
          refine ⟨hv.grows.seen hseen, fun hin => ?_⟩
          rw [hv.grows.num hseen]
          exact Nat.le_trans hmin (hlow (hold hseen hin))
        · rw [List.mem_singleton.mp hy]
          exact ⟨hv.seen, fun _ => Nat.le_trans (Nat.min_le_right low low') hv.low_le⟩
      lowest := fun x hx y hy hin => by
        rcases List.mem_append.mp hx with hx | hx
        · exact Nat.le_trans (Nat.min_le_right low low') (hv.lowest x hx y hy hin)
        · have hwaits : x ∈ s'.stack := by
            rw [h.stack]
            exact List.mem_append_left _ hx
          have hseen := h.valid.ended x hwaits (h.not_mem_path hx) y hy
          rw [hv.grows.num hseen]
          exact Nat.le_trans hmin (h.lowest x hx y hy (hold hseen hin))
      reached := by
        obtain ⟨y, hy, hnum, hcalls⟩ := h.reached
        have hkeep : ∃ y ∈ s''.stack, s''.num y = low ∧ g.Calls fn y := by
          refine ⟨y, ?_, ?_, hcalls⟩
          · rw [hstack]
            exact List.mem_append_right above' hy
          · rw [hv.grows.num (h.valid.seen_of_mem hy), hnum]
        rcases Nat.le_total low low' with hle | hle
        · rw [Nat.min_eq_left hle]
          exact hkeep
        · rw [Nat.min_eq_right hle]
          rcases hv.reached with hhigh | ⟨z, hz, hnum', hcalls'⟩
          · have hbelow := h.valid.below fn hfn
            have hnumber := h.number
            have hlow := h.low_le
            omega
          · exact ⟨z, hz, hnum', .head hc hcalls'⟩ }

/-- When all that a function calls has been looked at, its visit ends. -/
theorem Meeting.finish (h : Meeting g path fn s (g.callees fn) low above s') :
    ∃ above', Visited g path fn s low above' (if low = s.next then s'.close fn else s') := by
  have hfn : fn ∈ s'.stack := h.valid.waits List.mem_cons_self
  split
  · next heq =>
    have hlow : ∀ x ∈ above ++ [fn], ∀ y ∈ g.callees x, y ∈ s'.stack → s'.num fn ≤ s'.num y := by
      intro x hx y hy hin
      rw [h.number, ← heq]
      rcases List.mem_append.mp hx with hx | hx
      · exact h.lowest x hx y hy hin
      · rw [List.mem_singleton.mp hx] at hy
        exact (h.met y hy).2 hin
    have hnot : fn ∉ above := fun hin => h.not_mem_path hin List.mem_cons_self
    obtain ⟨hstack, hfound, -⟩ := stack_close h.stack hnot
    refine ⟨[], ?_⟩
    exact
      { valid := h.valid.close h.stack h.before (fun y hy => (h.met y hy).1) hlow
        grows :=
          { stack := hstack
            kept := h.grows.kept
            fresh := fun x hx => absurd hx List.not_mem_nil
            later := h.grows.later
            done := fun x hx => by
              obtain ⟨c, hc, hxc⟩ := h.grows.done x hx
              exact ⟨c, hfound ▸ List.mem_append_left _ hc, hxc⟩ }
        next := h.next
        seen := h.valid.seen_of_mem hfn
        low_le := by
          change low ≤ s'.num fn
          rw [h.number]
          exact h.low_le
        lowest := fun x hx => absurd hx List.not_mem_nil
        reached := .inl (Nat.le_of_eq heq.symm) }
  · next hne =>
    have hlt : low < s.next := Nat.lt_of_le_of_ne h.low_le hne
    obtain ⟨y, hy, hnum, hcalls⟩ := h.reached
    refine ⟨above ++ [fn], ?_⟩
    exact
      { valid := h.valid.leave (fun z hz => (h.met z hz).1) hy (by rw [hnum, h.number]; exact hlt)
          hcalls
        grows := h.grows
        next := h.next
        seen := h.valid.seen_of_mem hfn
        low_le := by
          rw [h.number]
          exact h.low_le
        lowest := fun x hx z hz hin => by
          rcases List.mem_append.mp hx with hx | hx
          · exact h.lowest x hx z hz hin
          · rw [List.mem_singleton.mp hx] at hz
            exact (h.met z hz).2 hin
        reached := .inr ⟨y, hy, hnum, hcalls⟩ }

/-- Looking at what a function calls, when what is visited now is visited right. -/
theorem Meeting.foldl (visit : Nat → Search → Nat × Search)
    (hvisit : ∀ c ∈ g.callees fn, ∀ t : Search, t.Valid g (fn :: path) → ¬ t.Seen c →
      t.unseen g ≤ (s.push fn).unseen g →
      ∃ above, Visited g (fn :: path) c t (visit c t).1 above (visit c t).2)
    (callees : List Nat) (hcallees : callees ⊆ g.callees fn)
    (h : Meeting g path fn s met low above s') (hless : s'.unseen g ≤ (s.push fn).unseen g) :
    ∃ above', Meeting g path fn s (met ++ callees) (callees.foldl (meet visit) (low, s')).1 above'
      (callees.foldl (meet visit) (low, s')).2 := by
  induction callees generalizing met low above s' with
  | nil => exact ⟨above, by rw [List.append_nil]; exact h⟩
  | cons c callees ih =>
      have hc : c ∈ g.callees fn := hcallees List.mem_cons_self
      have hrest : callees ⊆ g.callees fn := fun x hx => hcallees (List.mem_cons_of_mem c hx)
      rw [List.foldl_cons, List.append_cons]
      cases hnumber : s'.number? c with
      | some n =>
          have hmeet : meet visit (low, s') c
              = (if s'.stack.contains c then min low n else low, s') := by
            rw [meet, hnumber]
          rw [hmeet]
          exact ih hrest (h.seen hc hnumber) hless
      | none =>
          obtain ⟨above', hv⟩ := hvisit c hc s' h.valid (not_seen_of_number? hnumber) hless
          have hmeet : meet visit (low, s') c = (min low (visit c s').1, (visit c s').2) := by
            rw [meet, hnumber]
          rw [hmeet]
          exact ih hrest (h.visited hc hv) (Nat.le_trans hv.grows.unseen_le hless)

/-- The visit of a function that has not been visited. -/
theorem visit_spec {fuel : Nat} (h : s.Valid g path) (hnew : ¬ s.Seen fn) (hnode : fn ∈ g.nodes)
    (hg : g.Sound) (hpath : ∀ x ∈ path, g.Calls x fn) (hfuel : s.unseen g ≤ fuel) :
    ∃ above, Visited g path fn s (g.visit fuel fn s).1 above (g.visit fuel fn s).2 := by
  induction fuel generalizing fn path s with
  | zero =>
      have := unseen_push hnew hnode
      omega
  | succ fuel ih =>
      have hless := unseen_push hnew hnode
      obtain ⟨above, hmeeting⟩ := Meeting.foldl (g.visit fuel)
        (fun c hc t ht htnew htless => ih ht htnew (hg.callees fn hc)
          (fun x hx => by
            rcases List.mem_cons.mp hx with rfl | hx
            · exact .single hc
            · exact (hpath x hx).tail hc) (by omega))
        (g.callees fn) (List.Subset.refl _) (h.meeting hnew hnode hpath) (Nat.le_refl _)
      exact hmeeting.finish

/-- Between the visits from outside nothing waits. -/
theorem Valid.stack_nil (h : s.Valid g []) : s.stack = [] := by
  refine List.eq_nil_iff_forall_not_mem.mpr fun y hy => ?_
  obtain ⟨x, hx, -⟩ := h.back y hy
  cases hx

theorem valid_start : Valid g [] {} := by
  refine ⟨?_, ?_, ?_, ?_, .nil, List.nodup_nil, ?_, ?_, ?_, List.nil_subset _, ?_, ?_, ?_, rfl⟩ <;>
    simp [Seen, Done, number?]

theorem visitNew_spec (h : s.Valid g []) (hg : g.Sound) (hnode : fn ∈ g.nodes) :
    (g.visitNew s fn).Valid g [] ∧ (g.visitNew s fn).Done fn
      ∧ ∀ x, s.Done x → (g.visitNew s fn).Done x := by
  have hdone {t : Search} (ht : t.Valid g []) {x : Nat} (hx : t.Seen x) : t.Done x := by
    refine ((ht.seen x).mp hx).resolve_left ?_
    rw [ht.stack_nil]
    exact List.not_mem_nil
  rw [visitNew]
  split
  · next hseen => exact ⟨h, hdone h hseen, fun x hx => hx⟩
  · next hnew =>
    obtain ⟨above, hv⟩ := visit_spec h hnew hnode hg (fun x hx => absurd hx List.not_mem_nil)
      (List.length_filter_le (fun x => (s.number? x).isNone) g.nodes)
    exact ⟨hv.valid, hdone hv.valid hv.seen, hv.grows.done⟩

theorem foldl_visitNew (hg : g.Sound) {fns : List Nat} (hfns : fns ⊆ g.nodes)
    (h : s.Valid g []) :
    (fns.foldl g.visitNew s).Valid g [] ∧ ∀ x, x ∈ fns ∨ s.Done x →
      (fns.foldl g.visitNew s).Done x := by
  induction fns generalizing s with
  | nil => exact ⟨h, fun x hx => hx.resolve_left List.not_mem_nil⟩
  | cons fn fns ih =>
      obtain ⟨hvalid, hself, hkept⟩ := visitNew_spec h hg (hfns List.mem_cons_self)
      obtain ⟨hvalid', hall⟩ := ih (fun x hx => hfns (List.mem_cons_of_mem fn hx)) hvalid
      refine ⟨hvalid', fun x hx => hall x ?_⟩
      rcases hx with hx | hx
      · rcases List.mem_cons.mp hx with rfl | hx
        · exact .inr hself
        · exact .inl hx
      · exact .inr (hkept x hx)

/-- When all functions have been visited, each component has been found. -/
theorem search_spec (hg : g.Sound) :
    g.search.Valid g [] ∧ ∀ x ∈ g.nodes, g.search.Done x := by
  obtain ⟨hvalid, hall⟩ := foldl_visitNew hg (List.Subset.refl g.nodes) valid_start
  exact ⟨hvalid, fun x hx => hall x (.inl hx)⟩

end Visits

end Search

/-! ## What is found -/

section Found

variable {g : CallGraph}

/-- What is taken off the stack waits there. -/
theorem analysis_eq_ok (hg : g.Sound) : g.analysis = .ok g.analyze := by
  rw [analysis, (Search.search_spec hg).1.kept]
  rfl

/-- What is found, once it is sorted, is the component of each of its members. -/
theorem mergeSort_found (hg : g.Sound) {c : List Nat}
    (hc : c ∈ g.search.found) {fn : Nat} (hfn : fn ∈ c) :
    c.mergeSort (· ≤ ·) = g.component fn := by
  obtain ⟨hvalid, -⟩ := Search.search_spec hg
  have hnodup : c.Nodup := (List.nodup_flatten.mp hvalid.nodup).1 c hc
  have hsorted : (c.mergeSort (· ≤ ·)).Pairwise (· ≤ ·) := List.pairwise_mergeSort' (· ≤ ·) c
  refine List.Perm.eq_of_pairwise (fun a b _ _ hab hba => Nat.le_antisymm hab hba) hsorted
    ((ascending_component hg fn).imp Nat.le_of_lt) ?_
  refine (List.mergeSort_perm c _).trans ((List.perm_ext_iff_of_nodup hnodup
    ((ascending_component hg fn).imp Nat.ne_of_lt)).mpr fun x => ?_)
  rw [hvalid.component c hc fn hfn x, mem_component hg]
  refine ⟨fun h => ⟨?_, h⟩, fun h => h.2⟩
  refine hvalid.nodes x ((hvalid.seen x).mpr (.inr ⟨c, hc, ?_⟩))
  exact (hvalid.component c hc fn hfn x).mpr h

/-- The components are the classes of functions that reach each other. -/
theorem mem_components (hg : g.Sound) {c : List Nat} :
    c ∈ g.components ↔ ∃ fn ∈ g.nodes, c = g.component fn := by
  obtain ⟨hvalid, hdone⟩ := Search.search_spec hg
  rw [components, List.mem_map]
  constructor
  · rintro ⟨found, hfound, rfl⟩
    obtain ⟨fn, hfn⟩ := List.exists_mem_of_ne_nil found (hvalid.nonempty found hfound)
    refine ⟨fn, ?_, mergeSort_found hg hfound hfn⟩
    exact hvalid.nodes fn ((hvalid.seen fn).mpr (.inr ⟨found, hfound, hfn⟩))
  · rintro ⟨fn, hfn, rfl⟩
    obtain ⟨found, hfound, hmem⟩ := hdone fn hfn
    exact ⟨found, hfound, mergeSort_found hg hfound hmem⟩

theorem component_mem (hg : g.Sound) {fn : Nat} (h : fn ∈ g.nodes) :
    g.component fn ∈ g.components :=
  (mem_components hg).mpr ⟨fn, h, rfl⟩

/-- No function is in two components, and none twice in one. -/
theorem nodup_flatten_components (hg : g.Sound) : g.components.flatten.Nodup := by
  obtain ⟨hvalid, -⟩ := Search.search_spec hg
  have hperm : g.components.flatten.Perm g.search.found.flatten := by
    rw [components]
    generalize g.search.found = found
    induction found with
    | nil => exact .refl _
    | cons c cs ih =>
        rw [List.map_cons, List.flatten_cons, List.flatten_cons]
        exact (List.mergeSort_perm c _).append ih
  exact hperm.nodup_iff.mpr hvalid.nodup

/-- A component is the one of each of its members. -/
theorem component_of_mem (hg : g.Sound) {c : List Nat} (hc : c ∈ g.components) {fn : Nat}
    (hfn : fn ∈ c) : c = g.component fn := by
  obtain ⟨first, -, rfl⟩ := (mem_components hg).mp hc
  exact (component_congr hg hfn).symm

theorem eq_of_mem_components (hg : g.Sound) {c c' : List Nat} (hc : c ∈ g.components)
    (hc' : c' ∈ g.components) {fn : Nat} (hfn : fn ∈ c) (hfn' : fn ∈ c') : c = c' := by
  rw [component_of_mem hg hc hfn, component_of_mem hg hc' hfn']

theorem nonempty_of_mem_components (hg : g.Sound) {c : List Nat} (hc : c ∈ g.components) :
    c ≠ [] := by
  obtain ⟨fn, hfn, rfl⟩ := (mem_components hg).mp hc
  exact List.ne_nil_of_mem (self_mem_component hg hfn)

theorem nodup_components (hg : g.Sound) : g.components.Nodup := by
  have hpairwise := (List.nodup_flatten.mp (nodup_flatten_components hg)).2
  refine hpairwise.imp_of_mem fun {c c'} hc _ hdisjoint heq => ?_
  obtain ⟨fn, hfn⟩ := List.exists_mem_of_ne_nil c (nonempty_of_mem_components hg hc)
  exact hdisjoint hfn (heq ▸ hfn)

/-- Together the components list each function once. -/
theorem flatten_components_perm (hg : g.Sound) : g.components.flatten.Perm g.nodes := by
  refine (List.perm_ext_iff_of_nodup (nodup_flatten_components hg) hg.nodup).mpr fun fn => ?_
  rw [List.mem_flatten]
  constructor
  · rintro ⟨c, hc, hfn⟩
    obtain ⟨first, -, rfl⟩ := (mem_components hg).mp hc
    exact ((mem_component hg).mp hfn).1
  · exact fun hfn => ⟨g.component fn, component_mem hg hfn, self_mem_component hg hfn⟩

end Found

end WasmShader.CallGraph
