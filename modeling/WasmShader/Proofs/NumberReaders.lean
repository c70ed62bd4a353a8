import WasmShader.Proofs.SignedNumbers

/-!
# Readers of numbers

`readers_answer` says what each reader makes of bytes, whichever way these begin. Within the range
of its type a reader gives the number that is denoted. Beyond it the unsigned reader reports
overflow, while the signed ones drop what does not fit (`wide_groups_pass`).

The writers emit the shortest bytes that are read as their number (`writers_shortest`).
-/

namespace WasmShader

namespace Leb128

open Reader

section Answers

variable {α : Type} (r : Reader α) (toInt : α → Int) (limit : Nat) (denoted : Bytes → Int)
  (low high : Int)

/-- The bytes begin with groups, and not with too many. -/
structure Begins (limit : Nat) (used rest bs : Bytes) : Prop where
  split : bs = used ++ rest
  grouped : Grouped used
  few : used.length ≤ limit

/-- The answer to some bytes of a reader of at most `limit` groups, of a type whose values are the
integers from `low` on below `high`. A number that is denoted and is not one of these is answered by
`beyond`. -/
structure Answers (beyond : Int → Except Failure α) (bs : Bytes) : Prop where
  within : ∀ {used rest}, Begins limit used rest bs → low ≤ denoted used ∧ denoted used < high →
    ∃ v, r bs = .ok (v, rest) ∧ toInt v = denoted used
  outside : ∀ {used rest}, Begins limit used rest bs → ¬(low ≤ denoted used ∧ denoted used < high) →
    r bs = (beyond (denoted used)).map fun v => (v, rest)
  long : ∀ {pre rest}, bs = pre ++ rest → (∀ b ∈ pre, Continues b) → pre.length = limit →
    r bs = .error overflow
  short : (∀ b ∈ bs, Continues b) → bs.length < limit → r bs = .error endOfInput

/-- The answer is the number that is denoted, or that it does not fit. -/
def Strict (bs : Bytes) : Prop := Answers r toInt limit denoted low high (fun _ => .error overflow) bs

end Answers

theorem readU32_strict (bs : Bytes) :
    Strict readU32 (fun v => (v.toNat : Int)) 5 (fun used => (natural used : Int)) 0 (2 ^ 32) bs where
  within := by
    rintro used rest ⟨rfl, hgrouped, hlen⟩ hin
    obtain ⟨final, hgroups, -⟩ := groups_grouped (k := 4) hgrouped hlen 0 0 rest
    simp only [Nat.zero_add, Nat.shiftLeft_zero] at hgroups
    refine ⟨(natural used).toUInt32, ?_, ?_⟩
    · rw [readU32_eq, bind_of_ok hgroups]
      dsimp only
      rw [if_neg (by omega)]
      rfl
    · rw [Binary.toNat_toUInt32 (by omega)]
  outside := by
    rintro used rest ⟨rfl, hgrouped, hlen⟩ hout
    obtain ⟨final, hgroups, -⟩ := groups_grouped (k := 4) hgrouped hlen 0 0 rest
    simp only [Nat.zero_add, Nat.shiftLeft_zero] at hgroups
    rw [readU32_eq, bind_of_ok hgroups]
    dsimp only
    rw [if_pos (by omega)]
    rfl
  long := by
    rintro pre rest rfl h hlen
    rw [readU32, groups_long (k := 4) h hlen 0 0 rest]
    rfl
  short h hlen := by
    rw [readU32, groups_short (k := 4) h (Nat.le_of_lt_succ hlen) 0 0]
    rfl

/-- A reader of signed numbers answers with what is left of the denoted number in its type. -/
theorem signed_answers {α : Type} {ofInt : Int → α} {toInt : α → Int} {low high : Int}
    {r : Reader α} (k : Nat)
    (hr : r = (groups (7 * k) 0 0 >>= fun x => pure (ofInt (signed x.1 x.2.1 x.2.2)) : Reader α))
    (hwrap : ∀ n q, ofInt (n + 2 ^ 64 * q) = ofInt n)
    (hexact : ∀ n, low ≤ n ∧ n < high → toInt (ofInt n) = n) (bs : Bytes) :
    Answers r toInt (k + 1) integer low high (fun n => .ok (ofInt n)) bs := by
  have hread {used rest : Bytes} (h : Begins (k + 1) used rest bs) :
      r bs = .ok (ofInt (integer used), rest) := by
    obtain ⟨rfl, hgrouped, hlen⟩ := h
    rw [hr, signed_grouped hwrap hgrouped hlen]
  have hrefused {e : Failure} (h : groups (0 + 7 * k) 0 0 bs = .error e) : r bs = .error e := by
    rw [Nat.zero_add] at h
    rw [hr]
    change (groups (7 * k) 0 0 bs >>= _) = _
    rw [h]
    rfl
  exact {
    within := fun h hin => ⟨_, hread h, hexact _ hin⟩
    outside := fun h _ => hread h
    long := fun hbs h hlen => hrefused (hbs ▸ groups_long h hlen 0 0 _)
    short := fun h hlen => hrefused (groups_short h (Nat.le_of_lt_succ hlen) 0 0) }

theorem readS32_answers (bs : Bytes) :
    Answers readS32 Int32.toInt 5 integer (-2 ^ 31) (2 ^ 31) (fun n => .ok (Int32.ofInt n)) bs :=
  signed_answers 4 rfl ofInt_wrap32 (fun _ h => Int32.toInt_ofInt_of_le h.1 h.2) bs

theorem readS64_answers (bs : Bytes) :
    Answers readS64 Int64.toInt 10 integer (-2 ^ 63) (2 ^ 63) (fun n => .ok (Int64.ofInt n)) bs :=
  signed_answers 9 rfl ofInt_wrap64 (fun _ h => Int64.toInt_ofInt_of_le h.1 h.2) bs

/-- A number that the bytes begin with is in range. -/
def FitsRange (limit : Nat) (low high : Int) (bs : Bytes) : Prop :=
  ∀ used rest, Begins limit used rest bs → low ≤ integer used ∧ integer used < high

/-- A reader that accepts numbers beyond its range is strict on bytes without them. -/
theorem Answers.strict_iff {α : Type} {r : Reader α} {toInt : α → Int} {limit : Nat}
    {low high : Int} {ofInt : Int → α} {bs : Bytes}
    (h : Answers r toInt limit integer low high (fun n => .ok (ofInt n)) bs) :
    Strict r toInt limit integer low high bs ↔ FitsRange limit low high bs := by
  constructor
  · intro hstrict used rest hbegins
    by_contra hout
    have hrefused := hstrict.outside hbegins hout
    rw [h.outside hbegins hout] at hrefused
    cases hrefused
  · intro hfits
    exact ⟨h.within, fun hbegins hout => absurd (hfits _ _ hbegins) hout, h.long, h.short⟩

/-- What the readers make of bytes, whichever way these begin. The unsigned reader reads numbers in
its range exactly and reports overflow of others. The signed readers do so for bytes that do not
begin with a number beyond their range; of such a number they give what is left of it in 32 or 64
bits. -/
theorem readers_answer (bs : Bytes) :
    (∀ limit, Start limit bs)
      ∧ Strict readU32 (fun v => (v.toNat : Int)) 5 (fun used => (natural used : Int)) 0 (2 ^ 32) bs
      ∧ Answers readS32 Int32.toInt 5 integer (-2 ^ 31) (2 ^ 31) (fun n => .ok (Int32.ofInt n)) bs
      ∧ Answers readS64 Int64.toInt 10 integer (-2 ^ 63) (2 ^ 63) (fun n => .ok (Int64.ofInt n)) bs
      ∧ (Strict readS32 Int32.toInt 5 integer (-2 ^ 31) (2 ^ 31) bs
          ↔ FitsRange 5 (-2 ^ 31) (2 ^ 31) bs)
      ∧ (Strict readS64 Int64.toInt 10 integer (-2 ^ 63) (2 ^ 63) bs
          ↔ FitsRange 10 (-2 ^ 63) (2 ^ 63) bs) :=
  ⟨fun limit => start limit bs, readU32_strict bs, readS32_answers bs, readS64_answers bs,
    (readS32_answers bs).strict_iff, (readS64_answers bs).strict_iff⟩

theorem grouped_of_continues {bs : Bytes} {b : UInt8} (h : ∀ b ∈ bs, Continues b)
    (hb : ¬Continues b) : Grouped (bs ++ [b]) := by
  induction bs with
  | nil => exact .last hb
  | cons a bs ih =>
      obtain ⟨ha, hbs⟩ := List.forall_mem_cons.mp h
      exact .more ha (ih hbs)

/-- Five groups that denote `2 ^ 32 - 1` are read as the signed number `-1`, and ten groups that
denote `2 ^ 63` as `-2 ^ 63`. -/
theorem wide_groups_pass :
    readS32 (List.replicate 4 0xff ++ [0x0f]) = .ok (-1, [])
      ∧ ¬Strict readS32 Int32.toInt 5 integer (-2 ^ 31) (2 ^ 31) (List.replicate 4 0xff ++ [0x0f])
      ∧ readS64 (List.replicate 9 0x80 ++ [0x01]) = .ok (Int64.minValue, [])
      ∧ ¬Strict readS64 Int64.toInt 10 integer (-2 ^ 63) (2 ^ 63)
          (List.replicate 9 0x80 ++ [0x01]) := by
  have hread32 : readS32 (List.replicate 4 0xff ++ [0x0f]) = .ok (-1, []) := by rfl
  have hread64 : readS64 (List.replicate 9 0x80 ++ [0x01]) = .ok (Int64.minValue, []) := by rfl
  refine ⟨hread32, fun h => ?_, hread64, fun h => ?_⟩
  · have hgrouped : Grouped (List.replicate 4 0xff ++ [0x0f]) :=
      grouped_of_continues (by simp [Continues]) (by decide)
    have hrefused := h.outside ⟨(List.append_nil _).symm, hgrouped, by decide⟩ (by decide)
    rw [hread32] at hrefused
    cases hrefused
  · have hgrouped : Grouped (List.replicate 9 0x80 ++ [0x01]) :=
      grouped_of_continues (by simp [Continues]) (by decide)
    have hrefused := h.outside ⟨(List.append_nil _).symm, hgrouped, by decide⟩ (by decide)
    rw [hread64] at hrefused
    cases hrefused

/-! ## Writers -/

/-- What is written for a value is read as the value, whatever follows, and fewer bytes are not. -/
structure Shortest {α : Type} (r : Reader α) (w : α → Bytes) : Prop where
  reads : ∀ v rest, r (w v ++ rest) = .ok (v, rest)
  least : ∀ v used rest, r (used ++ rest) = .ok (v, rest) → (w v).length ≤ used.length

theorem shortest_of_codec {α : Type} {r : Reader α} {w : α → Bytes}
    (h : Binary.Codec r w fun _ => True) : Shortest r w where
  reads _ rest := h.reads trivial rest
  least v used rest hread := by
    have hlen := (h.gives hread).2
    rw [List.length_append] at hlen
    omega

theorem writers_shortest :
    Shortest readU32 writeU32 ∧ Shortest readS32 writeS32 ∧ Shortest readS64 writeS64 :=
  ⟨shortest_of_codec Binary.codec_u32, shortest_of_codec Binary.codec_s32,
    shortest_of_codec Binary.codec_s64⟩

end Leb128

end WasmShader
