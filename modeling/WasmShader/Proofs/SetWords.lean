import Mathlib.Data.Nat.Bitwise
import WasmShader.Machine.BitSet

/-!
# What the words of a set hold

A number is a member of a set if its bit is one in the word at its place (`BitSet.Mem`), where a
place without a word counts as an empty one. Growing keeps all words, so each operation can be read
place by place, and a union reports a change just if some word changes. The bits of a word are
listed from the lowest one up: taking off the lowest bit leaves all others (`testBit_and_pred`), so
the list is that of the one bits, and as long as their number.
-/

namespace WasmShader

/-! ## The lowest bit -/

namespace Bits

theorem testBit_trailingZeros {width n : Nat} (hn : n ≠ 0) (hlt : n < 2 ^ width) :
    n.testBit (trailingZeros width n) = true := by
  induction width generalizing n with
  | zero => omega
  | succ width ih =>
      rw [trailingZeros]
      split
      · next hodd => exact Nat.testBit_zero .. ▸ decide_eq_true hodd
      · rw [Nat.testBit_succ]
        exact ih (by omega) (by omega)

theorem testBit_of_lt_trailingZeros {width n k : Nat} (h : k < trailingZeros width n) :
    n.testBit k = false := by
  induction width generalizing n k with
  | zero => cases h
  | succ width ih =>
      rw [trailingZeros] at h
      split at h
      · cases h
      · next heven =>
        cases k with
        | zero => rw [Nat.testBit_zero, decide_eq_false heven]
        | succ k =>
            rw [Nat.testBit_succ]
            exact ih (by omega)

/-- Half of a number without its lowest bit. -/
theorem and_pred_div_two (n : Nat) :
    (n &&& (n - 1)) / 2 = if n % 2 = 1 then n / 2 else n / 2 &&& (n / 2 - 1) := by
  rw [Nat.and_div_two]
  split
  · rw [show (n - 1) / 2 = n / 2 by omega, Nat.and_self]
  · rw [show (n - 1) / 2 = n / 2 - 1 by omega]

theorem and_pred_mod_two (n : Nat) : (n &&& (n - 1)) % 2 = 0 := by
  have hbit := Nat.testBit_and n (n - 1) 0
  rw [Nat.testBit_zero, Nat.testBit_zero, Nat.testBit_zero] at hbit
  by_contra hodd
  rw [decide_eq_true (by omega : (n &&& (n - 1)) % 2 = 1)] at hbit
  have := of_decide_eq_true ((Bool.and_eq_true_iff.mp hbit.symm).1)
  have := of_decide_eq_true ((Bool.and_eq_true_iff.mp hbit.symm).2)
  omega

/-- Without its lowest bit a number has all its other bits. -/
theorem testBit_and_pred {width n : Nat} (hn : n ≠ 0) (hlt : n < 2 ^ width) (k : Nat) :
    (n &&& (n - 1)).testBit k = (n.testBit k && decide (k ≠ trailingZeros width n)) := by
  induction width generalizing n k with
  | zero => omega
  | succ width ih =>
      rw [trailingZeros]
      cases k with
      | zero =>
          rw [Nat.testBit_zero, and_pred_mod_two, Nat.testBit_zero]
          split
          · next hodd => simp
          · next heven => simp [heven]
      | succ k =>
          rw [Nat.testBit_succ, and_pred_div_two, Nat.testBit_succ]
          split
          · simp
          · rw [ih (by omega) (by omega)]
            simp

theorem oneBits_zero (width : Nat) : oneBits width 0 = 0 := by
  induction width with
  | zero => rfl
  | succ width ih => rw [oneBits, ih]

/-- Without its lowest bit a number has one bit less. -/
theorem oneBits_and_pred {width n : Nat} (hn : n ≠ 0) (hlt : n < 2 ^ width) :
    oneBits width n = oneBits width (n &&& (n - 1)) + 1 := by
  induction width generalizing n with
  | zero => omega
  | succ width ih =>
      rw [oneBits, oneBits, and_pred_mod_two, and_pred_div_two]
      split
      · omega
      · rw [ih (n := n / 2) (by omega) (by omega)]
        omega

end Bits

namespace BitSet

/-! ## The numbers of a word -/

theorem testBit_toNat (w : UInt64) (k : Nat) : w.toNat.testBit k = w.toBitVec.getLsbD k := rfl

theorem toNat_ne_zero {w : UInt64} (h : w ≠ 0) : w.toNat ≠ 0 :=
  fun hzero => h (UInt64.toNat_inj.mp hzero)

/-- The bits of a word are those of its lowest bit and of the word without it. -/
theorem getLsbD_and_pred {w : UInt64} (h : w ≠ 0) (k : Nat) :
    (w &&& (w - 1)).toBitVec.getLsbD k = true
      ↔ w.toBitVec.getLsbD k = true ∧ k ≠ Bits.trailingZeros 64 w.toNat := by
  rw [← testBit_toNat, toNat_and_pred, Bits.testBit_and_pred (toNat_ne_zero h) w.toNat_lt,
    testBit_toNat, Bool.and_eq_true, decide_eq_true_eq]

theorem mem_wordList {base v : Nat} {w : UInt64} :
    v ∈ wordList base w ↔ base ≤ v ∧ w.toBitVec.getLsbD (v - base) = true := by
  induction w using wordList.induct with
  | case1 =>
      rw [wordList, dif_pos rfl]
      simp
  | case2 w h ih =>
      have hone := Bits.testBit_trailingZeros (toNat_ne_zero h) w.toNat_lt
      rw [wordList, dif_neg h, List.mem_cons, ih, getLsbD_and_pred h]
      constructor
      · rintro (rfl | ⟨hle, hbit, -⟩)
        · exact ⟨Nat.le_add_right .., by rw [Nat.add_sub_cancel_left]; exact hone⟩
        · exact ⟨hle, hbit⟩
      · rintro ⟨hle, hbit⟩
        by_cases hlowest : v - base = Bits.trailingZeros 64 w.toNat
        · exact .inl (by omega)
        · exact .inr ⟨hle, hbit, hlowest⟩

/-- The numbers of a word ascend. -/
theorem pairwise_wordList (base : Nat) (w : UInt64) : (wordList base w).Pairwise (· < ·) := by
  induction w using wordList.induct with
  | case1 =>
      rw [wordList, dif_pos rfl]
      exact .nil
  | case2 w h ih =>
      rw [wordList, dif_neg h]
      refine .cons (fun v hv => ?_) ih
      obtain ⟨hle, hbit⟩ := mem_wordList.mp hv
      obtain ⟨hbit, hne⟩ := (getLsbD_and_pred h _).mp hbit
      by_contra hlt
      have hbelow : v - base < Bits.trailingZeros 64 w.toNat := by omega
      have hzero := Bits.testBit_of_lt_trailingZeros hbelow
      rw [testBit_toNat, hbit] at hzero
      cases hzero

theorem length_wordList (base : Nat) (w : UInt64) :
    (wordList base w).length = Bits.oneBits 64 w.toNat := by
  induction w using wordList.induct with
  | case1 =>
      rw [wordList, dif_pos rfl]
      exact (Bits.oneBits_zero 64).symm
  | case2 w h ih =>
      rw [wordList, dif_neg h, List.length_cons, ih, toNat_and_pred,
        ← Bits.oneBits_and_pred (toNat_ne_zero h) w.toNat_lt]

/-! ## Words by their places -/

/-- The word at a place, an empty one where there is none. -/
def wordAt (ws : List UInt64) (i : Nat) : UInt64 := ws[i]?.getD 0

theorem wordAt_grown (s : BitSet) (n i : Nat) : wordAt (s.grown n) i = wordAt s.words i := by
  unfold wordAt grown List.rightpad
  by_cases hi : i < s.words.length
  · rw [List.getElem?_append_left hi]
  · rw [List.getElem?_append_right (by omega), List.getElem?_eq_none (by omega : s.words.length ≤ i),
      List.getElem?_replicate]
    split <;> rfl

theorem wordAt_cons_zero (x : UInt64) (ws : List UInt64) : wordAt (x :: ws) 0 = x := rfl

theorem wordAt_cons_succ (x : UInt64) (ws : List UInt64) (i : Nat) :
    wordAt (x :: ws) (i + 1) = wordAt ws i := rfl

theorem wordAt_nil (i : Nat) : wordAt [] i = 0 := rfl

theorem wordAt_orWords {xs ys : List UInt64} (h : ys.length ≤ xs.length) (i : Nat) :
    wordAt (orWords xs ys h).1 i = wordAt xs i ||| wordAt ys i := by
  induction ys generalizing xs i with
  | nil =>
      rw [orWords, wordAt_nil]
      exact UInt64.or_zero.symm
  | cons y ys ih =>
      cases xs with
      | nil => exact absurd h (Nat.not_succ_le_zero _)
      | cons x xs =>
          have hle : ys.length ≤ xs.length := Nat.le_of_succ_le_succ h
          rw [orWords]
          split
          · next hsame =>
            cases i with
            | zero => exact hsame.symm
            | succ i => exact ih hle i
          · cases i with
            | zero => rfl
            | succ i => exact ih hle i

/-- Some word changes just if a change is reported. -/
theorem orWords_changes {xs ys : List UInt64} (h : ys.length ≤ xs.length) :
    (orWords xs ys h).2 = true ↔ ∃ i, wordAt xs i ||| wordAt ys i ≠ wordAt xs i := by
  induction ys generalizing xs with
  | nil =>
      rw [orWords]
      simp only [Bool.false_eq_true, false_iff, not_exists, not_not, wordAt_nil]
      exact fun i => UInt64.or_zero
  | cons y ys ih =>
      cases xs with
      | nil => exact absurd h (Nat.not_succ_le_zero _)
      | cons x xs =>
          have hle : ys.length ≤ xs.length := Nat.le_of_succ_le_succ h
          rw [orWords]
          split
          · next hsame =>
            rw [ih hle]
            constructor
            · rintro ⟨i, hi⟩
              exact ⟨i + 1, hi⟩
            · rintro ⟨i, hi⟩
              cases i with
              | zero => exact absurd hsame hi
              | succ i => exact ⟨i, hi⟩
          · next hother => exact iff_of_true rfl ⟨0, hother⟩

theorem wordAt_clearWords (xs ys : List UInt64) (i : Nat) :
    wordAt (clearWords xs ys) i = wordAt xs i &&& ~~~wordAt ys i := by
  have hzero : ~~~(0 : UInt64) = -1 := rfl
  induction ys generalizing xs i with
  | nil => rw [clearWords, wordAt_nil, hzero, UInt64.and_neg_one]
  | cons y ys ih =>
      cases xs with
      | nil => exact UInt64.zero_and.symm
      | cons x xs =>
          rw [clearWords]
          cases i with
          | zero => rfl
          | succ i => exact ih xs i

/-! ## Members -/

/-- The number is a member. -/
def Mem (s : BitSet) (v : Nat) : Prop := (wordAt s.words (v / 64)).toBitVec.getLsbD (v % 64) = true

variable {s t r : BitSet} {u v : Nat}

theorem toBitVec_bit (v : Nat) : (bit v).toBitVec = BitVec.twoPow 64 (v % 64) := by
  simp [bit, BitVec.twoPow]

theorem and_bit_ne_zero (w : UInt64) (v : Nat) :
    (w &&& bit v != 0) = w.toBitVec.getLsbD (v % 64) := by
  have hlt : v % 64 < 64 := Nat.mod_lt v (by decide)
  have hne : BitVec.twoPow 64 (v % 64) ≠ 0#64 := by
    intro h
    have hget : (BitVec.twoPow 64 (v % 64)).getLsbD (v % 64) = true := by
      rw [BitVec.getLsbD_twoPow]
      simp [hlt]
    rw [h] at hget
    simp at hget
  rw [Bool.eq_iff_iff, bne_iff_ne, ne_eq, ← UInt64.toBitVec_inj, UInt64.toBitVec_and,
    toBitVec_bit, BitVec.and_twoPow]
  cases w.toBitVec.getLsbD (v % 64) with
  | false => simp
  | true => simpa using hne

theorem contains_iff : s.contains v = true ↔ s.Mem v := by
  unfold contains Mem wordAt
  split
  · next h => rw [List.getElem?_eq_getElem h, Option.getD_some, and_bit_ne_zero]
  · next h =>
    rw [List.getElem?_eq_none (by omega)]
    simp

theorem not_mem_room (n v : Nat) : ¬ (room n).Mem v := by
  unfold Mem wordAt room
  rw [List.getElem?_replicate]
  split <;> simp

theorem mem_insert : (s.insert u).Mem v ↔ s.Mem v ∨ v = u := by
  have hv : v % 64 < 64 := Nat.mod_lt v (by decide)
  have hlen := s.le_length_grown (u / 64 + 1)
  have hgrown := wordAt_grown s (u / 64 + 1) (v / 64)
  unfold wordAt at hgrown
  unfold Mem insert wordAt
  rw [List.getElem?_modify, ← hgrown]
  by_cases hplace : u / 64 = v / 64
  · simp only [if_pos hplace]
    rw [List.getElem?_eq_getElem (by omega), Option.map_eq_map, Option.map_some, Option.getD_some,
      Option.getD_some, UInt64.toBitVec_or, toBitVec_bit, BitVec.getLsbD_or, BitVec.getLsbD_twoPow]
    simp only [Bool.or_eq_true, Bool.and_eq_true, decide_eq_true_eq]
    refine or_congr_right ?_
    omega
  · simp only [if_neg hplace, id_map']
    refine (or_iff_left ?_).symm
    rintro rfl
    exact hplace rfl

theorem mem_union : (s.union t).1.Mem v ↔ s.Mem v ∨ t.Mem v := by
  unfold Mem union
  rw [wordAt_orWords, wordAt_grown, UInt64.toBitVec_or, BitVec.getLsbD_or, Bool.or_eq_true]

theorem mem_minus : (s.minus t).Mem v ↔ s.Mem v ∧ ¬ t.Mem v := by
  have hlt : v % 64 < 64 := Nat.mod_lt v (by decide)
  unfold Mem minus
  rw [wordAt_clearWords, UInt64.toBitVec_and, UInt64.toBitVec_not, BitVec.getLsbD_and,
    BitVec.getLsbD_not, Bool.and_eq_true]
  simp [hlt]

theorem mem_unionMinus : (s.unionMinus t r).1.Mem v ↔ s.Mem v ∨ (t.Mem v ∧ ¬ r.Mem v) := by
  rw [unionMinus, mem_union, mem_minus]

/-- A word stays as it is just if it has all bits that are added. -/
theorem or_eq_left_iff (x y : UInt64) :
    x ||| y = x ↔ ∀ k, y.toBitVec.getLsbD k = true → x.toBitVec.getLsbD k = true := by
  rw [← UInt64.toBitVec_inj, UInt64.toBitVec_or]
  constructor
  · intro h k hk
    rw [← h, BitVec.getLsbD_or, hk, Bool.or_true]
  · intro h
    refine BitVec.eq_of_getLsbD_eq fun k _ => ?_
    rw [BitVec.getLsbD_or, Bool.or_eq_left_iff_imp]
    exact h k

/-- A union reports whether something is new. -/
theorem union_grows : (s.union t).2 = true ↔ ∃ v, t.Mem v ∧ ¬ s.Mem v := by
  change (orWords _ _ _).2 = true ↔ _
  simp only [orWords_changes, wordAt_grown, ne_eq, or_eq_left_iff, not_forall, exists_prop, Mem]
  constructor
  · rintro ⟨i, k, hnew, hnot⟩
    have hk : k < 64 := BitVec.lt_of_getLsbD hnew
    refine ⟨64 * i + k, ?_, ?_⟩
    · rwa [show (64 * i + k) / 64 = i by omega, show (64 * i + k) % 64 = k by omega]
    · rwa [show (64 * i + k) / 64 = i by omega, show (64 * i + k) % 64 = k by omega]
  · rintro ⟨v, hnew, hnot⟩
    exact ⟨v / 64, v % 64, hnew, hnot⟩

/-! ## What is listed and counted -/

theorem mem_wordList_place {i : Nat} {w : UInt64} :
    v ∈ wordList (i * 64) w ↔ v / 64 = i ∧ w.toBitVec.getLsbD (v % 64) = true := by
  rw [mem_wordList]
  constructor
  · rintro ⟨hle, hbit⟩
    have hlt : v - i * 64 < 64 := BitVec.lt_of_getLsbD hbit
    refine ⟨by omega, ?_⟩
    rwa [show v % 64 = v - i * 64 by omega]
  · rintro ⟨rfl, hbit⟩
    refine ⟨by omega, ?_⟩
    rwa [show v - v / 64 * 64 = v % 64 by omega]

theorem mem_toList : v ∈ s.toList ↔ s.Mem v := by
  rw [toList, List.mem_flatMap, Mem, wordAt]
  constructor
  · rintro ⟨⟨w, i⟩, hw, hv⟩
    obtain ⟨rfl, hbit⟩ := mem_wordList_place.mp hv
    rw [List.mem_zipIdx_iff_getElem?.mp hw]
    exact hbit
  · intro hbit
    cases hw : s.words[v / 64]? with
    | none =>
        rw [hw] at hbit
        simp at hbit
    | some w =>
        rw [hw] at hbit
        exact ⟨(w, v / 64), List.mem_zipIdx_iff_getElem?.mpr hw, mem_wordList_place.mpr ⟨rfl, hbit⟩⟩

theorem pairwise_toList (s : BitSet) : s.toList.Pairwise (· < ·) := by
  rw [toList, List.pairwise_flatMap]
  refine ⟨fun p _ => pairwise_wordList _ _, ?_⟩
  have hplaces : (s.words.zipIdx.map (·.2)).Pairwise (· < ·) := by
    rw [List.zipIdx_map_snd]
    exact List.pairwise_lt_range'
  refine (List.pairwise_map.mp hplaces).imp fun {p q} hlt u hu v hv => ?_
  have hu := (mem_wordList_place.mp hu).1
  have hv := (mem_wordList_place.mp hv).1
  omega

theorem nodup_toList (s : BitSet) : s.toList.Nodup := (pairwise_toList s).imp Nat.ne_of_lt

theorem size_eq_length (s : BitSet) : s.size = s.toList.length := by
  have hfst : s.words.zipIdx.map (·.1) = s.words := List.zipIdx_map_fst 0 s.words
  rw [size, ← List.foldl_map, ← List.sum_eq_foldl, toList, List.length_flatMap]
  simp only [length_wordList]
  conv_lhs => rw [← hfst, List.map_map]
  rfl

end BitSet

end WasmShader
