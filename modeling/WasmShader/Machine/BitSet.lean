import WasmShader.Value.Bits

/-!
# Sets of small numbers

A set of numbers in words of 64 bits: bit `v % 64` of the word at place `v / 64`
tells whether `v` is in it. A set is made with words for the numbers below a
bound, and gets more of them when a number or another set needs them.
-/

namespace WasmShader

structure BitSet where
  words : List UInt64
  deriving DecidableEq

namespace BitSet

/-- The set without members, with words for the numbers below `n`. -/
def room (n : Nat) : BitSet := ⟨.replicate ((n + 63) / 64) 0⟩

def empty : BitSet := room 0

instance : Inhabited BitSet := ⟨empty⟩

def bit (v : Nat) : UInt64 := 1 <<< (v % 64).toUInt64

/-- The words of a set, at least `n` of them. -/
def grown (s : BitSet) (n : Nat) : List UInt64 := s.words.rightpad n 0

theorem le_length_grown (s : BitSet) (n : Nat) : n ≤ (s.grown n).length := by
  rw [grown, List.length_rightpad]
  exact Nat.le_max_left ..

def insert (s : BitSet) (v : Nat) : BitSet :=
  ⟨(s.grown (v / 64 + 1)).modify (v / 64) (· ||| bit v)⟩

def contains (s : BitSet) (v : Nat) : Bool :=
  if h : v / 64 < s.words.length then s.words[v / 64] &&& bit v != 0 else false

/-- Adds words to as many others, and tells whether one of these changed. -/
def orWords : (xs ys : List UInt64) → ys.length ≤ xs.length → List UInt64 × Bool
  | xs, [], _ => (xs, false)
  | [], _ :: _, h => absurd h (Nat.not_succ_le_zero _)
  | x :: xs, y :: ys, h =>
    let rest := orWords xs ys (Nat.le_of_succ_le_succ h)
    if x ||| y = x then (x :: rest.1, rest.2) else ((x ||| y) :: rest.1, true)

/-- The union, and whether the first set grew by it. -/
def union (s other : BitSet) : BitSet × Bool :=
  let words := orWords (s.grown other.words.length) other.words (s.le_length_grown _)
  (⟨words.1⟩, words.2)

/-- Clears words by those at the same places, as far as there are any. -/
def clearWords : (xs ys : List UInt64) → List UInt64
  | xs, [] => xs
  | [], _ :: _ => []
  | x :: xs, y :: ys => (x &&& ~~~y) :: clearWords xs ys

/-- The numbers of a set that are not in `other`. -/
def minus (s other : BitSet) : BitSet := ⟨clearWords s.words other.words⟩

/-- The union with what of `other` is not in `removed`, and whether the first
set grew by it. -/
def unionMinus (s other removed : BitSet) : BitSet × Bool := s.union (other.minus removed)

theorem toNat_and_pred (w : UInt64) : (w &&& (w - 1)).toNat = w.toNat &&& (w.toNat - 1) := by
  rw [UInt64.toNat_and]
  rcases Nat.eq_zero_or_pos w.toNat with hzero | hpos
  · rw [hzero, Nat.zero_and, Nat.zero_and]
  · have hle : 1 ≤ w := UInt64.le_iff_toNat_le.mpr hpos
    rw [UInt64.toNat_sub_of_le _ _ hle]
    rfl

theorem and_pred_lt {w : UInt64} (h : w ≠ 0) : (w &&& (w - 1)).toNat < w.toNat := by
  have hne : w.toNat ≠ 0 := fun hzero => h (UInt64.toNat_inj.mp hzero)
  have hle : w.toNat &&& (w.toNat - 1) ≤ w.toNat - 1 := Nat.and_le_right
  rw [toNat_and_pred]
  omega

/-- The numbers of one word, its first bit standing for `base`: the lowest bit is
taken off until none is left. -/
def wordList (base : Nat) (w : UInt64) : List Nat :=
  if h : w = 0 then []
  else (base + Bits.trailingZeros 64 w.toNat) :: wordList base (w &&& (w - 1))
termination_by w.toNat
decreasing_by exact and_pred_lt h

/-- The numbers of the set in ascending order. -/
def toList (s : BitSet) : List Nat := s.words.zipIdx.flatMap fun (w, i) => wordList (i * 64) w

def size (s : BitSet) : Nat := s.words.foldl (fun n w => n + Bits.oneBits 64 w.toNat) 0

end BitSet

end WasmShader
