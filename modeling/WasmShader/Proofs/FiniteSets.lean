import Mathlib.Data.Finset.Sort
import Mathlib.Data.Fin.Tuple.Basic
import WasmShader.Proofs.SetWords

/-!
# Sets of numbers are finite sets

A `BitSet` stands for the finite set of its members (`BitSet.members`), and each operation does to
the members what its name says, whatever room its sets were made with. So a `History`, which makes, copies and changes several sets one
after the other, can be read twice: as sets in words (`History.sets`) and as finite sets
(`History.members`). The two readings agree after every history, and a union reports whether the
finite set of its receiver gets larger.
-/

namespace WasmShader

namespace BitSet

variable {s t r : BitSet} {v : Nat}

/-! ## Members as a finite set -/

def members (s : BitSet) : Finset Nat := ⟨s.toList, nodup_toList s⟩

theorem mem_members : v ∈ s.members ↔ s.Mem v := mem_toList

@[simp] theorem contains_iff_mem_members : s.contains v = true ↔ v ∈ s.members := by
  rw [contains_iff, mem_members]

@[simp] theorem members_room (n : Nat) : (room n).members = ∅ :=
  Finset.eq_empty_of_forall_notMem fun v => mt mem_members.mp (not_mem_room n v)

@[simp] theorem members_insert : (s.insert v).members = Insert.insert v s.members := by
  ext u
  rw [Finset.mem_insert, mem_members, mem_members, mem_insert, or_comm]

@[simp] theorem members_union : (s.union t).1.members = s.members ∪ t.members := by
  ext u
  rw [Finset.mem_union, mem_members, mem_members, mem_members, mem_union]

@[simp] theorem members_minus : (s.minus t).members = s.members \ t.members := by
  ext u
  rw [Finset.mem_sdiff, mem_members, mem_members, mem_members, mem_minus]

@[simp] theorem members_unionMinus :
    (s.unionMinus t r).1.members = s.members ∪ (t.members \ r.members) := by
  rw [unionMinus, members_union, members_minus]

/-! ## What is listed and reported -/

/-- The members are listed in ascending order. -/
theorem toList_eq_sort (s : BitSet) : s.toList = s.members.sort (· ≤ ·) := by
  have hascending : s.toList.Pairwise (· ≤ ·) := (pairwise_toList s).imp Nat.le_of_lt
  have hperm : (s.members.sort (· ≤ ·)).Perm s.toList :=
    Multiset.coe_eq_coe.mp (Finset.sort_eq s.members (· ≤ ·))
  exact hperm.symm.eq_of_pairwise' hascending (Finset.pairwise_sort s.members (· ≤ ·))

theorem size_eq_card (s : BitSet) : s.size = s.members.card := size_eq_length s

/-- A union reports whether the set of its receiver gets larger. -/
theorem union_reports : (s.union t).2 = true ↔ s.members ⊂ s.members ∪ t.members := by
  rw [union_grows, Finset.ssubset_iff_of_subset Finset.subset_union_left]
  constructor
  · rintro ⟨v, ht, hs⟩
    exact ⟨v, Finset.mem_union_right _ (mem_members.mpr ht), mt mem_members.mp hs⟩
  · rintro ⟨v, hv, hs⟩
    have ht := (Finset.mem_union.mp hv).resolve_left hs
    exact ⟨v, mem_members.mp ht, mt mem_members.mpr hs⟩

theorem unionMinus_reports :
    (s.unionMinus t r).2 = true ↔ s.members ⊂ s.members ∪ (t.members \ r.members) := by
  rw [unionMinus, union_reports, members_minus]

/-! ## Histories -/

/-- What was done to `n` sets, which are numbered in the order in which they came up. A set is
made empty, with room for some numbers, or as a copy of another one. -/
inductive History : Nat → Type
  | start : History 0
  | make {n : Nat} (before : History n) (room : Nat) : History (n + 1)
  | copy {n : Nat} (before : History n) (source : Fin n) : History (n + 1)
  | insert {n : Nat} (before : History n) (target : Fin n) (v : Nat) : History n
  | union {n : Nat} (before : History n) (target other : Fin n) : History n
  | unionMinus {n : Nat} (before : History n) (target other removed : Fin n) : History n

namespace History

variable {n : Nat}

/-- The sets behind a history. -/
def sets : {n : Nat} → History n → Fin n → BitSet
  | _, .start => Fin.elim0
  | _, .make before room => Fin.snoc before.sets (.room room)
  | _, .copy before source => Fin.snoc before.sets (before.sets source)
  | _, .insert before target v =>
      Function.update before.sets target ((before.sets target).insert v)
  | _, .union before target other =>
      Function.update before.sets target ((before.sets target).union (before.sets other)).1
  | _, .unionMinus before target other removed =>
      Function.update before.sets target
        ((before.sets target).unionMinus (before.sets other) (before.sets removed)).1

/-- The finite sets that a history is about. -/
def members : {n : Nat} → History n → Fin n → Finset Nat
  | _, .start => Fin.elim0
  | _, .make before _ => Fin.snoc before.members ∅
  | _, .copy before source => Fin.snoc before.members (before.members source)
  | _, .insert before target v =>
      Function.update before.members target (Insert.insert v (before.members target))
  | _, .union before target other =>
      Function.update before.members target (before.members target ∪ before.members other)
  | _, .unionMinus before target other removed =>
      Function.update before.members target
        (before.members target ∪ (before.members other \ before.members removed))

/-- One more operation keeps the two readings of a history together: a new set goes behind the
others, any other operation changes its target only. -/
theorem members_sets (h : History n) : ∀ i, (h.sets i).members = h.members i := by
  induction h with
  | start => exact fun i => i.elim0
  | make before room ih =>
      intro i
      cases i using Fin.lastCases with
      | last => simp [sets, members]
      | cast i => simpa [sets, members] using ih i
  | copy before source ih =>
      intro i
      cases i using Fin.lastCases with
      | last => simpa [sets, members] using ih source
      | cast i => simpa [sets, members] using ih i
  | insert before target v ih =>
      intro i
      by_cases hi : i = target
      · subst hi
        simp [sets, members, ih]
      · simp [sets, members, hi, ih]
  | union before target other ih =>
      intro i
      by_cases hi : i = target
      · subst hi
        simp [sets, members, ih]
      · simp [sets, members, hi, ih]
  | unionMinus before target other removed ih =>
      intro i
      by_cases hi : i = target
      · subst hi
        simp [sets, members, ih]
      · simp [sets, members, hi, ih]

/-- After every history each set is as the finite set that it stands for: it has the same members,
lists them in ascending order and counts them. A union reports whether the receiver's finite set
gets larger by it, and leaves the other sets as they are. -/
theorem sets_are_finite_sets (h : History n) :
    (∀ i v, (h.sets i).contains v = true ↔ v ∈ h.members i)
    ∧ (∀ i, (h.sets i).toList = (h.members i).sort (· ≤ ·)
      ∧ (h.sets i).toList.Pairwise (· < ·)
      ∧ (h.sets i).size = (h.sets i).toList.length
      ∧ (h.sets i).size = (h.members i).card)
    ∧ (∀ i j, ((h.sets i).union (h.sets j)).2 = true
      ↔ h.members i ⊂ (h.union i j).members i)
    ∧ (∀ i j k, ((h.sets i).unionMinus (h.sets j) (h.sets k)).2 = true
      ↔ h.members i ⊂ (h.unionMinus i j k).members i)
    ∧ ∀ i x, x ≠ i →
      (∀ j, (h.union i j).sets x = h.sets x) ∧ ∀ j k, (h.unionMinus i j k).sets x = h.sets x := by
  have hmembers := h.members_sets
  refine ⟨fun i v => ?_, fun i => ⟨?_, pairwise_toList _, size_eq_length _, ?_⟩, fun i j => ?_, fun i j k => ?_,
    fun i x hx => ⟨fun j => ?_, fun j k => ?_⟩⟩
  · rw [contains_iff_mem_members, hmembers]
  · rw [toList_eq_sort, hmembers]
  · rw [size_eq_card, hmembers]
  · simp [union_reports, hmembers, members]
  · simp [unionMinus_reports, hmembers, members]
  · simp [sets, hx]
  · simp [sets, hx]

/-- A set with room for four numbers gets more words for the far number of another one; the copy
made before keeps its one word. -/
example :
    let h := (History.start.make 4 |>.insert 0 3 |>.make 130 |>.insert 1 129 |>.copy 0 |>.union 0 1)
    (h.sets 0).toList = [3, 129] ∧ (h.sets 1).toList = [129] ∧ (h.sets 2).toList = [3] := by
  decide +kernel

end History

end BitSet

end WasmShader
