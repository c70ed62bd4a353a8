import WasmShader.Proofs.Carrier
import WasmShader.Proofs.Variables

/-!
# Values in the words of a lane

The code that reads and writes values word by word does what it says: it reads the value
that the words of a region make up, and writes the words of a value and no others. What an
address means is left to the caller, who shows that the places stand for consecutive words
of one region.
-/

namespace WasmShader.Execution

open Shader Emit

/-! ## Regions -/

/-- The lane with other words in a region. -/
def Lane.withWords (ln : Lane) : Region → Array UInt32 → Lane
  | .stack, ws => { ln with stack := ⟨ws⟩ }
  | .io, ws => { ln with io := ws }
  | .globals, ws => { ln with globals := ws }

/-- The state with other words in a region of its lane. -/
def State.withWords (s : State) (r : Region) (ws : Array UInt32) : State :=
  { s with lane := s.lane.withWords r ws }

@[simp] theorem Lane.words_withWords (ln : Lane) (r : Region) (ws : Array UInt32) :
    (ln.withWords r ws).words r = ws := by
  cases r <;> rfl

theorem Lane.words_withWords_ne {r r' : Region} (h : r' ≠ r) (ln : Lane) (ws : Array UInt32) :
    (ln.withWords r ws).words r' = ln.words r' := by
  cases r <;> cases r' <;> first | rfl | exact absurd rfl h

@[simp] theorem Lane.withWords_withWords (ln : Lane) (r : Region) (ws us : Array UInt32) :
    (ln.withWords r ws).withWords r us = ln.withWords r us := by
  cases r <;> rfl

@[simp] theorem Lane.withWords_words (ln : Lane) (r : Region) :
    ln.withWords r (ln.words r) = ln := by
  cases r <;> rfl

@[simp] theorem Lane.index_withWords (ln : Lane) (r : Region) (ws : Array UInt32) :
    (ln.withWords r ws).index = ln.index := by
  cases r <;> rfl

theorem Lane.setWord_eq (ln : Lane) (r : Region) (i : Nat) (v : UInt32) :
    ln.setWord r i v = ln.withWords r ((ln.words r).setIfInBounds i v) := by
  cases r <;> rfl

@[simp] theorem State.vars_withWords (s : State) (r : Region) (ws : Array UInt32) :
    (s.withWords r ws).vars = s.vars := rfl

@[simp] theorem State.privates_withWords (s : State) (r : Region) (ws : Array UInt32) :
    (s.withWords r ws).privates = s.privates := rfl

@[simp] theorem State.lane_withWords (s : State) (r : Region) (ws : Array UInt32) :
    (s.withWords r ws).lane = s.lane.withWords r ws := rfl

@[simp] theorem State.withWords_withWords (s : State) (r : Region) (ws us : Array UInt32) :
    (s.withWords r ws).withWords r us = s.withWords r us := by
  rw [State.withWords, State.withWords, State.withWords, Lane.withWords_withWords]

@[simp] theorem State.withWords_words (s : State) (r : Region) :
    s.withWords r (s.lane.words r) = s := by
  rw [State.withWords, Lane.withWords_words]

@[simp] theorem State.lookup_withWords (s : State) (r : Region) (ws : Array UInt32)
    (name : String) : (s.withWords r ws).lookup name = s.lookup name := rfl

/-! ## Addresses -/

theorem toNat_toUInt32 {n : Nat} (h : n < 2 ^ 32) : n.toUInt32.toNat = n :=
  UInt32.toNat_ofNat_of_lt' h

/-- The words of a region can be addressed. -/
structure Lane.Addressable (ln : Lane) (r : Region) : Prop where
  size : (ln.words r).size < 2 ^ 32
  place : ln.index * (ln.words r).size + (ln.words r).size ≤ 2 ^ 32

theorem Lane.base_toNat {ln : Lane} {r : Region} (h : ln.Addressable r)
    (hpos : 0 < (ln.words r).size) :
    (ln.base r).toNat = ln.index * (ln.words r).size := by
  have hplace := h.place
  have hindex : ln.index < 2 ^ 32 := by
    have : ln.index * 1 ≤ ln.index * (ln.words r).size := Nat.mul_le_mul_left _ hpos
    omega
  rw [Lane.base, UInt32.toNat_mul, toNat_toUInt32 hindex, toNat_toUInt32 h.size]
  exact Nat.mod_eq_of_lt (by omega)

/-- A word behind the start of a region is the word of the region at that distance. -/
theorem Lane.locate_eq {ln : Lane} {r : Region} (h : ln.Addressable r) {buffer : String}
    (hbuffer : Region.ofBuffer? buffer = some r) {j : Nat} (hj : j < (ln.words r).size)
    {idx : UInt32} (hidx : idx = ln.base r + j.toUInt32) :
    ln.locate buffer idx = .ok (r, j) := by
  have hplace := h.place
  have hsize := h.size
  have hbase := base_toNat h (by omega)
  have hjnat : (j.toUInt32).toNat = j := toNat_toUInt32 (by omega)
  have hsum : idx.toNat = ln.index * (ln.words r).size + j := by
    rw [hidx, UInt32.toNat_add, hbase, hjnat]; exact Nat.mod_eq_of_lt (by omega)
  have hdiff : idx - ln.base r = j.toUInt32 := by
    rw [hidx, UInt32.add_comm, UInt32.add_sub_cancel]
  have hsizeNat := toNat_toUInt32 hsize
  have hnot : ¬((decide (idx < ln.base r)
      || decide ((ln.words r).size.toUInt32 ≤ idx - ln.base r)) = true) := by
    rw [Bool.or_eq_true, decide_eq_true_eq, decide_eq_true_eq, UInt32.lt_iff_toNat_lt,
      UInt32.le_iff_toNat_le, hdiff, hjnat, hsizeNat, hsum, hbase]
    omega
  rw [Lane.locate, hbuffer]
  dsimp only
  rw [if_neg hnot, hdiff, hjnat]

/-- Places that stand for the words of a region from `start` on, whatever is in the region. -/
def PlacesAt (l : Layout) (s : State) (buffer : String) (r : Region) (place : Nat → Expr)
    (start n : Nat) : Prop :=
  ∀ ws, ws.size = (s.lane.words r).size → ∀ k, k < n →
    ∃ i, eval l (s.withWords r ws) (place k) = .ok i
      ∧ (s.withWords r ws).lane.locate buffer i.x = .ok (r, start + k)

theorem PlacesAt.withWords {l : Layout} {s : State} {buffer : String} {r : Region}
    {place : Nat → Expr} {start n : Nat} (h : PlacesAt l s buffer r place start n)
    {ws : Array UInt32} (hsize : ws.size = (s.lane.words r).size) :
    PlacesAt l (s.withWords r ws) buffer r place start n := by
  intro us hus k hk
  rw [State.lane_withWords, Lane.words_withWords] at hus
  rw [State.withWords_withWords]
  exact h us (hus.trans hsize) k hk

/-! ## Addresses -/

section Places

variable {l : Layout} {s : State} {buffer : String} {r : Region}

theorem eval_sum {a b : Expr} {x y : UInt32} (ha : eval l s a = .ok (.ofU32 x))
    (hb : eval l s b = .ok (.ofU32 y)) : eval l s (.binary .add a b) = .ok (.ofU32 (x + y)) := by
  rw [eval, ha, hb]
  rfl

theorem eval_offset {e : Expr} {x : UInt32} (h : eval l s e = .ok (.ofU32 x)) (off : UInt32) :
    eval l s (offset e off) = .ok (.ofU32 (x + off)) := by
  unfold offset
  split
  · next heq => rw [h, heq, UInt32.add_zero]
  · refine eval_sum h ?_
    rw [Expr.u32, eval]
    rfl

theorem Lane.base_withWords {ln : Lane} {ws : Array UInt32}
    (h : ws.size = (ln.words r).size) : (ln.withWords r ws).base r = ln.base r := by
  rw [Lane.base, Lane.base, Lane.words_withWords, Lane.index_withWords, h]

theorem Lane.Addressable.withWords {ln : Lane} (ha : ln.Addressable r) {ws : Array UInt32}
    (h : ws.size = (ln.words r).size) : (ln.withWords r ws).Addressable r := by
  refine ⟨?_, ?_⟩
  · rw [Lane.words_withWords, h]; exact ha.size
  · rw [Lane.words_withWords, Lane.index_withWords, h]; exact ha.place

/-- Words behind the base of a region, which is in a private variable. -/
theorem placesAt_baseWord {base : String} (hvars : s.vars.lookup base = none)
    (hprivates : s.privates.lookup base = some (.ofU32 (s.lane.base r)))
    (ha : s.lane.Addressable r) (hbuffer : Region.ofBuffer? buffer = some r) {off n : Nat}
    (hn : off + n ≤ (s.lane.words r).size) : PlacesAt l s buffer r (baseWord base off) off n := by
  intro ws hsize k hk
  have hbase : eval l (s.withWords r ws) (.var base) = .ok (.ofU32 (s.lane.base r)) :=
    State.lookup_of_privates hvars hprivates
  refine ⟨_, eval_offset hbase _, ?_⟩
  refine Lane.locate_eq (ha.withWords hsize) hbuffer ?_ ?_
  · rw [Lane.words_withWords, hsize]; omega
  · rw [Lane.base_withWords hsize]; rfl

end Places

/-! ## Reading -/

/-- The words of an array from a place on; those behind its end count as zero. -/
def wordsFrom (xs : Array UInt32) (start n : Nat) : List UInt32 :=
  (List.range n).map fun k => xs.getD (start + k) 0

theorem length_wordsFrom (xs : Array UInt32) (start n : Nat) :
    (wordsFrom xs start n).length = n := by
  rw [wordsFrom, List.length_map, List.length_range]

section Load

variable {l : Layout} {s : State} {buffer : String} {r : Region} {place : Nat → Expr}
  {start n : Nat}

theorem eval_load (h : PlacesAt l s buffer r place start n) {k : Nat} (hk : k < n) :
    eval l s (.load buffer (place k)) = .ok (.ofU32 ((s.lane.words r).getD (start + k) 0)) := by
  obtain ⟨i, hi, hat⟩ := h (s.lane.words r) rfl k hk
  rw [State.withWords_words] at hi hat
  rw [eval, hi]
  change State.load s buffer i.x = _
  rw [State.load, hat]
  rfl

theorem evalAll_load (h : PlacesAt l s buffer r place start n) {ks : List Nat}
    (hks : ∀ k ∈ ks, k < n) :
    evalAll l s (ks.map fun k => .load buffer (place k))
      = .ok (ks.map fun k => .ofU32 ((s.lane.words r).getD (start + k) 0)) := by
  induction ks with
  | nil => rw [List.map_nil, evalAll]; rfl
  | cons k ks ih =>
      rw [List.map_cons, evalAll, eval_load h (hks k List.mem_cons_self),
        ih fun k hk => hks k (List.mem_cons_of_mem _ hk)]
      rfl

/-- A vector is read from as many words as it has components. -/
theorem eval_compose_load (h : PlacesAt l s buffer r place start n) (hn : n ≤ 4) (ty : Ty) :
    eval l s (.compose ty ((List.range n).map fun k => .load buffer (place k)))
      = .ok (.ofWords ty (wordsFrom (s.lane.words r) start n)) := by
  rw [eval, evalAll_load h fun k hk => List.mem_range.mp hk]
  change (if 4 < _ then _ else _) = _
  rw [if_neg (by rw [List.length_map, List.length_range]; omega), List.map_map]
  rfl

/-- Reading a value gives the one that its words make up. -/
theorem eval_loadValue {t : ValueType} (ht : t.isKnown = true)
    (h : PlacesAt l s buffer r place start (l.words t)) :
    eval l s (loadValue l buffer place t)
      = .ok (.ofWords (Ty.carrier l t) (wordsFrom (s.lane.words r) start (l.words t))) := by
  have hone (hw : 0 < l.words t) := eval_load h hw
  cases t with
  | reserved _ => cases ht
  | i32 => exact hone Nat.one_pos
  | f32 =>
      change eval l s (.bitcast .f32 (.load buffer (place 0))) = _
      rw [eval, hone Nat.one_pos]
      rfl
  | i64 => exact eval_compose_load h (l.words_le_four _) .vec2
  | v128 => exact eval_compose_load h (l.words_le_four _) .vec4
  | f64 =>
      cases hnative : l.nativeF64 with
      | false =>
          have hw : l.words .f64 = 3 := by rw [Layout.words, hnative]; rfl
          have hc : Ty.carrier l .f64 = .vec3 := by rw [Ty.carrier, hnative]; rfl
          rw [hw] at h
          rw [loadValue, hc, hw]
          exact eval_compose_load h (by decide) .vec3
      | true =>
          have hw : l.words .f64 = 2 := by rw [Layout.words, hnative]; rfl
          have hc : Ty.carrier l .f64 = .f64 := by rw [Ty.carrier, hnative]; rfl
          rw [hw] at h
          rw [loadValue, hc, hw]
          have hpair := eval_compose_load h (by decide) .vec2
          change eval l s (.bitcast .f64 (.compose .vec2
            ((List.range 2).map fun k => .load buffer (place k)))) = _
          rw [eval, hpair]
          rfl

end Load

/-! ## Writing -/

theorem size_writeAt (xs : Array UInt32) (start : Nat) (ws : List UInt32) :
    (LaneStack.writeAt xs start ws).size = xs.size := by
  induction ws generalizing xs start with
  | nil => rfl
  | cons w ws ih => rw [LaneStack.writeAt, ih, Array.size_setIfInBounds]

theorem toList_writeAt {xs : Array UInt32} {start : Nat} {ws : List UInt32}
    (h : start + ws.length ≤ xs.size) :
    (LaneStack.writeAt xs start ws).toList
      = xs.toList.take start ++ ws ++ xs.toList.drop (start + ws.length) := by
  induction ws generalizing xs start with
  | nil => simp [LaneStack.writeAt]
  | cons w ws ih =>
      rw [List.length_cons] at h
      have hlen : start < xs.toList.length := by rw [Array.length_toList]; omega
      have hsize : start + 1 + ws.length ≤ (xs.setIfInBounds start w).size := by
        rw [Array.size_setIfInBounds]; omega
      have htake : (xs.toList.set start w).take (start + 1) = xs.toList.take start ++ [w] := by
        rw [List.take_add_one, List.take_set, List.getElem?_set_self hlen,
          List.set_eq_of_length_le (by rw [List.length_take]; omega)]
        rfl
      rw [LaneStack.writeAt, ih hsize, Array.toList_setIfInBounds, htake,
        List.drop_set_of_lt (by omega)]
      have hend : start + (ws.length + 1) = start + 1 + ws.length := by omega
      simp only [List.length_cons, List.append_assoc, List.cons_append, List.nil_append, hend]

theorem wordsFrom_eq {xs : Array UInt32} {start n : Nat} (h : start + n ≤ xs.size) :
    wordsFrom xs start n = (xs.toList.drop start).take n := by
  apply List.ext_getElem?
  intro i
  rw [wordsFrom, List.getElem?_map, List.getElem?_take]
  by_cases hi : i < n
  · rw [List.getElem?_range hi, if_pos hi, List.getElem?_drop]
    simp only [Option.map_some, Array.getElem?_toList]
    rw [Array.getD_eq_getD_getElem?, Array.getElem?_eq_getElem (by omega)]
    rfl
  · rw [if_neg hi, List.getElem?_eq_none (by rw [List.length_range]; omega)]
    rfl

/-- The words between two parts of a region. -/
theorem wordsFrom_of_append {xs : Array UInt32} {front ws back : List UInt32} {start n : Nat}
    (hxs : xs.toList = front ++ ws ++ back) (hstart : front.length = start)
    (hn : ws.length = n) : wordsFrom xs start n = ws := by
  have hsize := congrArg List.length hxs
  rw [Array.length_toList, List.length_append, List.length_append] at hsize
  rw [wordsFrom_eq (by omega), hxs, List.append_assoc, ← hstart, List.drop_left, ← hn,
    List.take_left]

theorem toList_writeAt_of_append {xs : Array UInt32} {front us back ws : List UInt32}
    {start : Nat} (hxs : xs.toList = front ++ us ++ back) (hstart : front.length = start)
    (hlen : ws.length = us.length) :
    (LaneStack.writeAt xs start ws).toList = front ++ ws ++ back := by
  have hsize := congrArg List.length hxs
  rw [Array.length_toList, List.length_append, List.length_append] at hsize
  have htake : List.take start (front ++ us ++ back) = front := by
    rw [← hstart, List.append_assoc, List.take_left]
  have hdrop : List.drop (start + ws.length) (front ++ us ++ back) = back := by
    have : start + ws.length = (front ++ us).length := by rw [List.length_append]; omega
    rw [this, List.drop_left]
  rw [toList_writeAt (by omega), hxs, htake, hdrop]

section Store

variable {env : Env} {s : State} {buffer : String} {r : Region} {place : Nat → Expr}
  {start n : Nat}

/-- Stores that write the words of a list one after the other, in a state whose region
already has other words. -/
theorem meaning_stores {m : Nat} {es : List Expr} {ws : List UInt32}
    (hplaces : PlacesAt env.exe.layout s buffer r place start n) (hn : m + ws.length ≤ n)
    (hes : List.Forall₂ (fun e w => ∀ us : Array UInt32, us.size = (s.lane.words r).size →
      ∃ d, eval env.exe.layout (s.withWords r us) e = .ok d ∧ d.x = w) es ws)
    {xs : Array UInt32} (hxs : xs.size = (s.lane.words r).size) :
    meaning env (es.mapIdx fun k e => .store buffer (place (m + k)) e) (s.withWords r xs)
      = some (.ok .next, s.withWords r (LaneStack.writeAt xs (start + m) ws)) := by
  induction hes generalizing xs m with
  | nil => rw [List.mapIdx_nil, meaning_nil, LaneStack.writeAt]
  | @cons e w es ws he hes ih =>
      rw [List.length_cons] at hn
      obtain ⟨i, hi, hat⟩ := hplaces xs hxs m (by omega)
      obtain ⟨d, hd, rfl⟩ := he xs hxs
      have hset : ({ s.withWords r xs with
          lane := (s.withWords r xs).lane.setWord r (start + m) d.x } : State)
          = s.withWords r (xs.setIfInBounds (start + m) d.x) := by
        rw [Lane.setWord_eq, State.lane_withWords, Lane.words_withWords, Lane.withWords_withWords]
        rfl
      have hsize : (xs.setIfInBounds (start + m) d.x).size = (s.lane.words r).size := by
        rw [Array.size_setIfInBounds, hxs]
      have hrest := ih (show m + 1 + ws.length ≤ n by omega) hsize
      rw [List.mapIdx_cons, Nat.add_zero, meaning_cons_next (stmtMeaning_store hi hd hat), hset,
        LaneStack.writeAt, Nat.add_assoc start, ← hrest]
      congr 2
      funext k e
      rw [Nat.add_assoc, Nat.add_comm 1]

theorem eval_extract {l : Layout} {x : Expr} {d : Datum} {k : Int} {w : UInt32}
    (hx : eval l s x = .ok d) (hw : d.component k = .ok w) :
    eval l s (.extract x k) = .ok (.ofU32 w) := by
  simp only [eval, hx, hw, bind, Except.bind]
  rfl

/-- Writing a value writes the words it has in memory. -/
theorem meaning_storeValue {t : ValueType} (ht : t.isKnown = true)
    (hplaces : PlacesAt env.exe.layout s buffer r place start (env.exe.layout.words t))
    {v : Expr} {d : Datum} (hv : ∀ us : Array UInt32, us.size = (s.lane.words r).size →
      eval env.exe.layout (s.withWords r us) v = .ok d) :
    meaning env (storeValue env.exe.layout buffer place v t) s
      = some (.ok .next, s.withWords r (LaneStack.writeAt (s.lane.words r) start
          (d.stored env.exe.layout t))) := by
  have hgo (es : List Expr) (hcode : storeValue env.exe.layout buffer place v t
      = es.mapIdx fun k e => .store buffer (place (0 + k)) e)
      (hes : List.Forall₂ (fun e w => ∀ us : Array UInt32, us.size = (s.lane.words r).size →
        ∃ d, eval env.exe.layout (s.withWords r us) e = .ok d ∧ d.x = w) es
        (d.stored env.exe.layout t)) :
      meaning env (storeValue env.exe.layout buffer place v t) s
        = some (.ok .next, s.withWords r (LaneStack.writeAt (s.lane.words r) start
          (d.stored env.exe.layout t))) := by
    rw [hcode]
    have h := meaning_stores (m := 0) hplaces
      (Nat.le_of_eq (by rw [Nat.zero_add, Datum.length_stored])) hes rfl
    rwa [State.withWords_words] at h
  -- A component of the value, as an expression.
  have hpart (k : Nat) (w : UInt32) (hw : d.component (k : Int) = .ok w) :
      ∀ us : Array UInt32, us.size = (s.lane.words r).size →
        ∃ x, eval env.exe.layout (s.withWords r us) (.extract v (k : Int)) = .ok x ∧ x.x = w := by
    intro us hus
    exact ⟨.ofU32 w, eval_extract (hv us hus) hw, rfl⟩
  cases t with
  | reserved _ => cases ht
  | i32 => exact hgo [v] rfl (.cons (fun us hus => ⟨d, hv us hus, rfl⟩) .nil)
  | f32 =>
      refine hgo [.bitcast .u32 v] rfl (.cons (fun us hus => ?_) .nil)
      exact ⟨{ d with type := .u32 }, by rw [eval, hv us hus]; rfl, rfl⟩
  | i64 =>
      exact hgo [.extract v (0 : Nat), .extract v (1 : Nat)] rfl
        (.cons (hpart 0 d.x rfl) (.cons (hpart 1 d.y rfl) .nil))
  | v128 =>
      exact hgo [.extract v (0 : Nat), .extract v (1 : Nat), .extract v (2 : Nat),
        .extract v (3 : Nat)] rfl
        (.cons (hpart 0 d.x rfl) (.cons (hpart 1 d.y rfl) (.cons (hpart 2 d.z rfl)
          (.cons (hpart 3 d.w rfl) .nil))))
  | f64 =>
      cases hnative : env.exe.layout.nativeF64 with
      | false =>
          have hw : env.exe.layout.words .f64 = 3 := by rw [Layout.words, hnative]; rfl
          have hc : Ty.carrier env.exe.layout .f64 = .vec3 := by rw [Ty.carrier, hnative]; rfl
          refine hgo [.extract v (0 : Nat), .extract v (1 : Nat), .extract v (2 : Nat)] ?_ ?_
          · rw [storeValue, hc]; rfl
          · rw [Datum.stored, hw]
            exact .cons (hpart 0 d.x rfl) (.cons (hpart 1 d.y rfl) (.cons (hpart 2 d.z rfl) .nil))
      | true =>
          have hw : env.exe.layout.words .f64 = 2 := by rw [Layout.words, hnative]; rfl
          have hc : Ty.carrier env.exe.layout .f64 = .f64 := by rw [Ty.carrier, hnative]; rfl
          have hbits (k : Nat) (w : UInt32) (hw : d.component (k : Int) = .ok w) :
              ∀ us : Array UInt32, us.size = (s.lane.words r).size →
                ∃ x, eval env.exe.layout (s.withWords r us)
                  (.extract (.bitcast .vec2 v) (k : Int)) = .ok x ∧ x.x = w := by
            intro us hus
            have hcast : eval env.exe.layout (s.withWords r us) (.bitcast .vec2 v)
                = .ok { d with type := .vec2 } := by
              rw [eval, hv us hus]; rfl
            exact ⟨.ofU32 w, eval_extract hcast hw, rfl⟩
          refine hgo [.extract (.bitcast .vec2 v) (0 : Nat),
            .extract (.bitcast .vec2 v) (1 : Nat)] ?_ ?_
          · rw [storeValue, hc]; rfl
          · rw [Datum.stored, hw]
            exact .cons (hbits 0 d.x rfl) (.cons (hbits 1 d.y rfl) .nil)

end Store

end WasmShader.Execution
