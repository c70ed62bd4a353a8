import WasmShader.Proofs.InstrCode
import WasmShader.Proofs.IntegerMeaning

/-!
# The code of integer instructions

The statements that stand for an integer instruction in the shader give what the backend
evaluates the instruction to, and so what WebAssembly says. A 32-bit instruction is written
with the operators of the shading language, whose shifts count by the low five bits of their
amount and whose division is defined everywhere; the checks in front of a division come to
the traps. A 64-bit sum or difference is a call of a function on word pairs, an extension
puts a word of sign bits behind a word, and everything else is the operation of the backend
itself.
-/

namespace WasmShader

open Execution Shader
open Emit hiding State

namespace Integer

/-- The end of an operation of the backend, as a shader value. -/
def ended (l : Layout) : Operated → Except Stop Datum
  | some (.ok v) => .ok (.ofValue l v)
  | some (.error code) => .error (.trap code)
  | none => .error .crash

theorem ended_i32 (l : Layout) (v : UInt32) : ended l (.i32 v) = .ok (.ofU32 v) := by
  change Except.ok (Datum.ofWords .u32 [v.toUInt64.toUInt32]) = _
  rw [UInt32.toUInt32_toUInt64]
  rfl

theorem ended_bool (l : Layout) (b : Bool) :
    ended l (.bool b) = .ok (.ofU32 (if b then 1 else 0)) := ended_i32 l _

theorem ended_pair (l : Layout) (w : WordPair) :
    ended l (.i64 w.join) = .ok (.ofWords .vec2 w.words) := by
  change Except.ok (Datum.ofWords .vec2 (WordPair.split w.join).words) = _
  rw [WordPair.split_join]

/-! ## Shifts by the low bits -/

theorem shiftLeft_mask (a b : UInt32) : a <<< (b &&& 31) = a <<< b := by
  apply UInt32.toNat_inj.mp
  rw [UInt32.toNat_shiftLeft, UInt32.toNat_shiftLeft, toNat_mask31, Nat.mod_mod]

theorem shiftRight_mask (a b : UInt32) : a >>> (b &&& 31) = a >>> b := by
  apply UInt32.toNat_inj.mp
  rw [UInt32.toNat_shiftRight, UInt32.toNat_shiftRight, toNat_mask31, Nat.mod_mod]

theorem mask_mask (b : UInt32) : b &&& 31 &&& 31 = b &&& 31 := by
  apply UInt32.toNat_inj.mp
  rw [toNat_mask31, toNat_mask31, Nat.mod_mod]

theorem mask_eq_mod (b : UInt32) : b &&& 31 = b % 32 :=
  UInt32.toNat_inj.mp (by rw [toNat_mask31, UInt32.toNat_mod]; rfl)

/-- A narrow integer moved to the top of a wide one and back. -/
theorem signed_shift {M N : Nat} (a : Nat) (h : M ≤ N) :
    signed N (a * 2 ^ (N - M) % 2 ^ N) / 2 ^ (N - M) = signed M (a % 2 ^ M) := by
  have hN : 2 ^ N = 2 ^ M * 2 ^ (N - M) := by rw [← pow_add, Nat.add_sub_cancel' h]
  have hpos : 0 < 2 ^ (N - M) := Nat.two_pow_pos _
  have hcancel (i : Int) : i * 2 ^ (N - M) / 2 ^ (N - M) = i :=
    Int.mul_ediv_cancel i (by positivity)
  have hiff : 2 * (a % 2 ^ M * 2 ^ (N - M)) < 2 ^ M * 2 ^ (N - M) ↔ 2 * (a % 2 ^ M) < 2 ^ M := by
    rw [← Nat.mul_assoc, Nat.mul_lt_mul_right hpos]
  simp only [hN, Nat.mul_mod_mul_right, signed, hiff]
  split
  · rw [← hcancel (a % 2 ^ M : Nat)]
    push_cast
    rfl
  · rw [← hcancel ((a % 2 ^ M : Nat) - 2 ^ M), Int.sub_mul]
    have hint : (2 : Int) ^ N = 2 ^ M * 2 ^ (N - M) := by exact_mod_cast hN
    rw [hint]
    push_cast
    rfl

theorem extend8 (a : UInt32) :
    ((a <<< 24).toInt32 >>> ((24 : UInt32).toInt32 &&& 31)).toUInt32
      = a.toUInt8.toInt8.toInt32.toUInt32 := by
  apply UInt32.toNat_inj.mp
  rw [toInt_shiftRight32, toNat_toUInt32 a.toUInt8.toInt8.toInt32, Int8.toInt_toInt32,
    toInt_toInt8, UInt32.toNat_toUInt8, UInt32.toNat_shiftLeft, Nat.shiftLeft_eq]
  exact congrArg (pattern 32) (signed_shift a.toNat (by decide : 8 ≤ 32))

theorem extend16 (a : UInt32) :
    ((a <<< 16).toInt32 >>> ((16 : UInt32).toInt32 &&& 31)).toUInt32
      = a.toUInt16.toInt16.toInt32.toUInt32 := by
  apply UInt32.toNat_inj.mp
  rw [toInt_shiftRight32, toNat_toUInt32 a.toUInt16.toInt16.toInt32, Int16.toInt_toInt32,
    toInt_toInt16, UInt32.toNat_toUInt16, UInt32.toNat_shiftLeft, Nat.shiftLeft_eq]
  exact congrArg (pattern 32) (signed_shift a.toNat (by decide : 16 ≤ 32))

/-- The words of a sign extension: the word, and its sign in every bit. -/
theorem extendSigned (a : UInt32) :
    a.toInt32.toInt64.toUInt64
      = (WordPair.mk a (a.toInt32 >>> ((31 : UInt32).toInt32 &&& 31)).toUInt32).join := by
  have ha : a.toNat < 2 ^ 32 := a.toNat_lt
  apply UInt64.toNat_inj.mp
  rw [WordPair.toNat_join, toInt_shiftRight32, toNat_toUInt64, Int32.toInt_toInt64,
    WordPair.toInt_toInt32]
  change _ = a.toNat + 2 ^ 32 * pattern 32 (signed 32 a.toNat / 2 ^ 31)
  unfold pattern signed
  split
  · omega
  · omega

theorem extendUnsigned (a : UInt32) : a.toUInt64 = (WordPair.mk a 0).join := by
  apply UInt64.toNat_inj.mp
  rw [WordPair.toNat_join, UInt32.toNat_toUInt64]
  rfl

/-! ## Expressions on words -/

section Words

variable {l : Layout} {s : State} {a b : Expr} {x y : UInt32}

theorem eval_word (l : Layout) (s : State) (w : UInt32) : eval l s (.u32 w) = .ok (.ofU32 w) := rfl

theorem eval_binary {op : BinaryOp} {d : Datum} (ha : eval l s a = .ok (.ofU32 x))
    (hb : eval l s b = .ok (.ofU32 y)) (h : u32Binary op x y = some d) :
    eval l s (.binary op a b) = .ok d := by
  rw [eval, ha, hb]
  change Execution.binary op (.ofU32 x) (.ofU32 y) = _
  simp only [Execution.binary, Datum.ofU32, h]

/-- An operator on words that are read as signed. -/
theorem eval_signed {op : BinaryOp} {d : Datum} (ha : eval l s a = .ok (.ofU32 x))
    (hb : eval l s b = .ok (.ofU32 y)) (h : i32Binary op x.toInt32 y.toInt32 = some d) :
    eval l s (.binary op (asI32 a) (asI32 b)) = .ok d := by
  rw [eval, asI32, asI32, eval, eval, ha, hb]
  change Execution.binary op { Datum.ofU32 x with type := .i32 } { Datum.ofU32 y with type := .i32 }
    = _
  simp only [Execution.binary, Datum.ofU32, h]

/-- A shift of a word that is read as signed; its amount is a word. -/
theorem eval_signed_shift (ha : eval l s a = .ok (.ofU32 x)) (hb : eval l s b = .ok (.ofU32 y)) :
    eval l s (asU32 (.binary .shr (asI32 a) b))
      = .ok (.ofU32 (x.toInt32 >>> (y.toInt32 &&& 31)).toUInt32) := by
  rw [asU32, eval, eval, asI32, eval, ha, hb]
  rfl

theorem eval_asU32 {v : Int32} (ha : eval l s a = .ok (.ofI32 v)) :
    eval l s (asU32 a) = .ok (.ofU32 v.toUInt32) := by
  rw [asU32, eval, ha]
  rfl

theorem eval_mask (hb : eval l s b = .ok (.ofU32 y)) :
    eval l s (mask31 b) = .ok (.ofU32 (y &&& 31)) :=
  eval_binary hb (eval_word l s 31) rfl

/-- A comparison as a word. -/
theorem eval_truth {c : Expr} {p : Bool} (h : eval l s c = .ok (.ofBool p)) :
    eval l s (boolToU32 c) = ended l (.bool p) := by
  rw [ended_bool]
  exact eval_boolToU32 h

theorem computed_pure {value : Expr} (h : eval l s value = .ok (.ofU32 x)) :
    computed l s [] value = ended l (.i32 x) := by
  rw [ended_i32]
  exact h

theorem computed_check {checks : List (Expr × TrapCode)} {cond value : Expr} {code : TrapCode}
    {p : Prop} [Decidable p] (hcond : eval l s cond = .ok (.ofBool (decide p))) :
    computed l s ((cond, code) :: checks) value
      = if p then .error (Stop.trap code) else computed l s checks value := by
  rw [computed, checkAll, hcond]
  by_cases hp : p
  · simp only [bind, Except.bind, truth_ofBool, hp, decide_true, if_true]
    rfl
  · simp only [bind, Except.bind, truth_ofBool, hp, decide_false, if_false, Bool.false_eq_true]
    rfl

end Words

/-! ## 32 bits -/

theorem toInt32_inj {w w' : UInt32} : w.toInt32 = w'.toInt32 ↔ w = w' :=
  ⟨fun h => congrArg Int32.toUInt32 h, congrArg UInt32.toInt32⟩

theorem zero_iff (w : UInt32) : w.toInt32 = 0 ↔ w = 0 := toInt32_inj

theorem minus_iff (w : UInt32) : w.toInt32 = -1 ↔ w = 0xffffffff := toInt32_inj

theorem minimum_iff (w : UInt32) : w.toInt32 = Int32.minValue ↔ w = 0x80000000 := toInt32_inj

section Code

variable {l : Layout} {s : State} {a b : Expr}

/-- The expression for a 32-bit instruction, and the operation `e` where there is none. -/
def expr32 (m : Mnemonic) (a b e : Expr) : Expr := ((lowerI32 m a b).map (·.value)).getD e

theorem computed_i32_binary {m : Mnemonic} {x y : UInt32} (v : Value) (e : Expr)
    (hknown : (binary 32 m 0 0).isSome = true)
    (ha : eval l s a = .ok (.ofU32 x)) (hb : eval l s b = .ok (.ofU32 y)) :
    computed l s (i32Checks m a b) (expr32 m a b e) = ended l (evalI32 m v x y) := by
  have hmask := eval_mask hb
  have hzero : eval l s (.binary .eq b (.u32 0)) = .ok (.ofBool (decide (y = 0))) := by
    rw [eval_binary hb (eval_word l s 0) rfl, beq_eq_decide]
  have hback : eval l s (mask31 (.binary .sub (.u32 32) (mask31 b)))
      = .ok (.ofU32 ((32 - y % 32) &&& 31)) := by
    rw [← mask_eq_mod]
    exact eval_mask (eval_binary (eval_word l s 32) hmask rfl)
  cases m <;> cases hknown
  case eq => exact eval_truth (eval_binary ha hb rfl)
  case ne => exact eval_truth (eval_binary ha hb rfl)
  case ltS => exact eval_truth (eval_signed ha hb rfl)
  case ltU => exact eval_truth (eval_binary ha hb rfl)
  case gtS => exact eval_truth (eval_signed ha hb rfl)
  case gtU => exact eval_truth (eval_binary ha hb rfl)
  case leS => exact eval_truth (eval_signed ha hb rfl)
  case leU => exact eval_truth (eval_binary ha hb rfl)
  case geS => exact eval_truth (eval_signed ha hb rfl)
  case geU => exact eval_truth (eval_binary ha hb rfl)
  case add => exact computed_pure (eval_binary ha hb rfl)
  case sub => exact computed_pure (eval_binary ha hb rfl)
  case mul => exact computed_pure (eval_binary ha hb rfl)
  case and => exact computed_pure (eval_binary ha hb rfl)
  case or => exact computed_pure (eval_binary ha hb rfl)
  case xor => exact computed_pure (eval_binary ha hb rfl)
  case divU =>
      refine (computed_check hzero).trans ?_
      simp only [evalI32]
      split
      · rfl
      · next hne =>
        refine computed_pure (eval_binary ha hb ?_)
        rw [u32Binary, if_neg hne]
  case remU =>
      refine (computed_check hzero).trans ?_
      simp only [evalI32]
      split
      · rfl
      · next hne =>
        refine computed_pure (eval_binary ha hb ?_)
        rw [u32Binary, if_neg hne]
  case divS =>
      have hoverflow : eval l s (.binary .logicalAnd (.binary .eq a (.u32 0x80000000))
          (.binary .eq b (.u32 0xffffffff)))
          = .ok (.ofBool (decide (x.toInt32 = Int32.minValue ∧ y.toInt32 = -1))) := by
        rw [eval, eval_binary ha (eval_word ..) rfl, eval_binary hb (eval_word ..) rfl]
        change Except.ok (Datum.ofBool ((Datum.ofBool (x == 0x80000000)).truth
          && (Datum.ofBool (y == 0xffffffff)).truth)) = _
        rw [truth_ofBool, truth_ofBool, beq_eq_decide, beq_eq_decide, ← Bool.decide_and]
        simp only [minimum_iff, minus_iff]
      refine (computed_check hzero).trans ?_
      simp only [evalI32]
      split
      · rfl
      · next hne =>
        refine (computed_check hoverflow).trans ?_
        simp only [Bool.and_eq_true, decide_eq_true_eq]
        split
        · rfl
        · next hfits =>
          refine computed_pure (eval_asU32 (eval_signed ha hb ?_))
          rw [i32Binary, if_neg]
          simp only [Bool.or_eq_true, Bool.and_eq_true, decide_eq_true_eq, zero_iff]
          exact not_or.mpr ⟨hne, hfits⟩
  case remS =>
      refine (computed_check hzero).trans ?_
      simp only [evalI32]
      split
      · rfl
      · next hne =>
        change eval l s (.select (.binary .eq b (.u32 0xffffffff)) (.u32 0)
          (asU32 (.binary .rem (asI32 a) (asI32 b)))) = _
        rw [eval, eval_binary hb (eval_word ..) rfl]
        change (if (Datum.ofBool (y == 0xffffffff)).truth then _ else _) = _
        rw [truth_ofBool, beq_eq_decide]
        simp only [decide_eq_true_eq, ← minus_iff]
        split
        · exact computed_pure (eval_word l s 0)
        · next hminus =>
          refine computed_pure (eval_asU32 (eval_signed ha hb ?_))
          rw [i32Binary, if_neg]
          simp only [Bool.or_eq_true, decide_eq_true_eq, zero_iff]
          exact not_or.mpr ⟨hne, hminus⟩
  case shl =>
      refine computed_pure (eval_binary ha hmask ?_)
      rw [u32Binary, mask_mask]
  case shrU =>
      refine computed_pure (eval_binary ha hmask ?_)
      rw [u32Binary, mask_mask]
  case shrS =>
      refine computed_pure ((eval_signed_shift ha hmask).trans ?_)
      change Except.ok (Datum.ofU32 (x.toInt32 >>> (y &&& 31 &&& 31).toInt32).toUInt32) = _
      rw [mask_mask]
      rfl
  case rotl =>
      refine computed_pure (eval_binary (eval_binary ha hmask rfl) (eval_binary ha hback rfl) ?_)
      simp only [u32Binary, shiftLeft_mask, shiftRight_mask, Bits.rotl32]
  case rotr =>
      refine computed_pure (eval_binary (eval_binary ha hmask rfl) (eval_binary ha hback rfl) ?_)
      simp only [u32Binary, shiftLeft_mask, shiftRight_mask, Bits.rotr32]

theorem computed_i32_unary {m : Mnemonic} {x : UInt32} {v : Value} (y : UInt32) (b e : Expr)
    (hop : ⟨.i32, m⟩ ∈ NumericOp.table.toList)
    (hknown : (unary 32 m 0).isSome = true) (hm : m ≠ .wrapI64)
    (ha : eval l s a = .ok (.ofU32 x)) :
    computed l s (i32Checks m a b) (expr32 m a b e) = ended l (evalI32 m v x y) := by
  have hunary (op : UnaryOp) (r : UInt32) (h : intUnary op x = some r) :
      eval l s (.unary op a) = .ok (.ofU32 r) := by
    rw [eval, ha]
    change Execution.unary op (.ofU32 x) = _
    simp only [Execution.unary, Datum.ofU32, h, Option.map_some]
  have hshift (k : UInt32) : eval l s (lowerI32.extend a k)
      = .ok (.ofU32 ((x <<< (k &&& 31)).toInt32 >>> (k.toInt32 &&& 31)).toUInt32) :=
    eval_signed_shift (eval_binary ha (eval_word l s k) rfl) (eval_word l s k)
  cases m <;> cases hknown
  case eqz => exact eval_truth (eval_binary ha (eval_word l s 0) rfl)
  case clz => exact computed_pure (hunary .clz _ rfl)
  case ctz => exact computed_pure (hunary .ctz _ rfl)
  case popcnt => exact computed_pure (hunary .popcnt _ rfl)
  case wrapI64 => exact absurd rfl hm
  case extendI32U => exact absurd hop (by decide +kernel)
  case extendI32S => exact absurd hop (by decide +kernel)
  case extend32S => exact absurd hop (by decide +kernel)
  case extend8S => exact computed_pure ((hshift 24).trans (by rw [shiftLeft_mask, extend8]))
  case extend16S => exact computed_pure ((hshift 16).trans (by rw [shiftLeft_mask, extend16]))

/-! ## Operands -/

/-- The values of the operands of an instruction. -/
def valuesOf (l : Layout) (types : List ValueType) (ds : List Datum) : List Value :=
  List.zipWith (fun t d => d.toValue l t) types ds

theorem fits_word {l : Layout} {d : Datum} (h : d.Fits l .i32) : d = .ofU32 d.x := h.symm

theorem u32_toValue (l : Layout) {t : ValueType} (ht : t = .i32 ∨ t = .i64) (d : Datum) :
    (d.toValue l t).u32 = d.x := by
  rcases ht with rfl | rfl
  · exact UInt32.toUInt32_toUInt64 d.x
  · exact congrArg WordPair.lo (WordPair.split_join ⟨d.x, d.y⟩)

theorem within_toValue (l : Layout) {t : ValueType} (ht : t = .i32 ∨ t = .i64) (d : Datum) :
    Within t (d.toValue l t) := by
  rcases ht with rfl | rfl
  · change d.x.toUInt64.toNat < 2 ^ 32
    rw [UInt32.toNat_toUInt64]
    exact d.x.toNat_lt
  · exact (d.toValue l .i64).lo.toNat_lt

theorem within_valuesOf (l : Layout) {types : List ValueType} {ds : List Datum}
    (htypes : ∀ t ∈ types, t = .i32 ∨ t = .i64) (hlen : types.length = ds.length) :
    List.Forall₂ Within types (valuesOf l types ds) := by
  induction types generalizing ds with
  | nil => exact .nil
  | cons t types ih =>
      cases ds with
      | nil => cases hlen
      | cons d ds =>
          exact .cons (within_toValue l (htypes t List.mem_cons_self) d)
            (ih (fun t ht => htypes t (List.mem_cons_of_mem _ ht)) (Nat.succ.inj hlen))

/-! ## The value of the code -/

variable {op : NumericOp} {args : List Expr} {ds : List Datum}

theorem needsEmulation_eq_false (hop : op.IsInteger) : needsEmulation l op = false := by
  have htype : op.type ≠ .f64 := by rcases hop.type with h | h <;> simp [h]
  have hhead : op.signature.params.head? ≠ some .f64 := fun h => by
    rcases hop.params _ (List.mem_of_mem_head? h) with h | h <;> cases h
  simp [needsEmulation, htype, hhead]

/-- The end of an evaluation that the operation of the type decides. -/
theorem map_evalNumeric {v : Value} (rest : List Value) (hop : op.IsInteger)
    (hlen : (v :: rest).length = op.signature.params.length) {t : ValueType}
    {r : Except TrapCode Nat}
    (h : evalTyped l op.type op.mnemonic v (rest.headD (.zero op.type)) = operated t r) :
    (evalNumeric l op.name (v :: rest)).map (.ofValue l)
      = ended l (evalTyped l op.type op.mnemonic v (rest.headD (.zero op.type))) := by
  rw [evalNumeric_eq l hop.mem hlen h, h]
  cases r with
  | ok n => rfl
  | error code => rfl

/-- A 64-bit instruction that calls no function computes as its expression does, or is the
operation of the backend. -/
theorem numericValue_i64 {m : Mnemonic} (hop : (NumericOp.mk .i64 m).IsInteger)
    (hpair : pairFunction? ⟨.i64, m⟩ = none) (args : List Expr) :
    numericValue l s ⟨.i64, m⟩ args
      = eval l s ((lowerI64 m (args.getD 0 .absent)).getD
        (.intrinsic (NumericOp.mk .i64 m).name args (NumericOp.mk .i64 m).signature.params
          (NumericOp.mk .i64 m).signature.results)) := by
  simp only [numericValue, hpair, numericChecks, numericExpr, needsEmulation_eq_false hop,
    Bool.false_eq_true, if_false, computed, checkAll]
  rfl

theorem eval_intrinsic (hop : op.IsInteger)
    (hargs : List.Forall₂ (fun e d => eval l s e = .ok d) args ds)
    (hlen : ds.length = op.signature.params.length) :
    eval l s (.intrinsic op.name args op.signature.params op.signature.results)
      = (evalNumeric l op.name (valuesOf l op.signature.params ds)).map (.ofValue l) := by
  have hknown : ∀ t ∈ op.signature.params, t.isKnown = true := fun t ht => by
    rcases hop.params t ht with rfl | rfl
    · rfl
    · rfl
  rw [eval, evalAll_of_forall₂ hargs]
  simp only [bind, Except.bind, operands_eq l hknown hlen]
  change _ = (evalNumeric l op.name (List.zipWith _ _ _)).map _
  generalize evalNumeric l op.name _ = r
  cases r with
  | ok v => rfl
  | error e => rfl

/-- 32-bit code computes as its expression does. -/
theorem numericValue_i32 {m : Mnemonic} (hop : (NumericOp.mk .i32 m).IsInteger) :
    numericValue l s ⟨.i32, m⟩ args
      = computed l s (i32Checks m (args.getD 0 .absent) (args.getD 1 .absent))
        (expr32 m (args.getD 0 .absent) (args.getD 1 .absent)
          (.intrinsic (NumericOp.mk .i32 m).name args (NumericOp.mk .i32 m).signature.params
            (NumericOp.mk .i32 m).signature.results)) := by
  have hpair : pairFunction? ⟨.i32, m⟩ = none := by simp [pairFunction?]
  simp only [numericValue, hpair, numericChecks, numericExpr, needsEmulation_eq_false hop,
    Bool.false_eq_true, if_false, expr32]

theorem numericValue_i32_unary {m : Mnemonic} {source : ValueType} {a : Expr} {d : Datum}
    (hop : (NumericOp.mk .i32 m).IsInteger) (hknown : (unary 32 m 0).isSome = true)
    (hsource : source = m.source?.getD .i32) (hfits : d.Fits l source)
    (ha : eval l s a = .ok d) (w : Value) :
    numericValue l s ⟨.i32, m⟩ [a] = ended l (evalTyped l .i32 m (d.toValue l source) w) := by
  rw [numericValue_i32 hop, evalTyped]
  by_cases hwrap : m = .wrapI64
  · subst hwrap
    cases hsource
    have hlow : (d.toValue l .i64).u32 = d.x := u32_toValue l (.inr rfl) d
    refine computed_pure (x := (d.toValue l .i64).u32) ?_
    change eval l s (.extract a 0) = _
    rw [eval, ha, hlow]
    rfl
  · have hword : source = .i32 := by
      rw [hsource]
      cases m <;> cases hknown
      case wrapI64 => exact absurd rfl hwrap
      all_goals rfl
    subst hword
    have hlow : (d.toValue l .i32).u32 = d.x := u32_toValue l (.inl rfl) d
    rw [hlow]
    exact computed_i32_unary _ _ _ hop.mem hknown hwrap (ha.trans (congrArg _ (fits_word hfits)))

/-- An extension puts a word behind the word. -/
theorem eval_pair {a b : Expr} {d e : Datum} (ha : eval l s a = .ok d) (hb : eval l s b = .ok e) :
    eval l s (.compose .vec2 [a, b]) = ended l (.i64 (WordPair.mk d.x e.x).join) := by
  rw [ended_pair, eval, evalAll, evalAll, evalAll, ha, hb]
  rfl

theorem numericValue_i64_unary {m : Mnemonic} {source : ValueType} {a : Expr} {d : Datum}
    (hop : (NumericOp.mk .i64 m).IsInteger) (hknown : (unary 64 m 0).isSome = true)
    (hsource : source = m.source?.getD .i64) (hfits : d.Fits l source)
    (ha : eval l s a = .ok d)
    (hend : (evalNumeric l (NumericOp.mk .i64 m).name [d.toValue l source]).map (.ofValue l)
      = ended l (evalTyped l .i64 m (d.toValue l source) (.zero .i64))) :
    numericValue l s ⟨.i64, m⟩ [a]
      = ended l (evalTyped l .i64 m (d.toValue l source) (.zero .i64)) := by
  have hargs : List.Forall₂ (fun e d => eval l s e = .ok d) [a] [d] := .cons ha .nil
  have hpair : pairFunction? ⟨.i64, m⟩ = none := by cases m <;> first | rfl | cases hknown
  have hword (hs : source = .i32) : (d.toValue l source).lo.toUInt32 = d.x := by
    subst hs; exact u32_toValue l (.inl rfl) d
  rw [numericValue_i64 hop hpair]
  cases m <;> cases hknown
  case wrapI64 => exact absurd hop.mem (by decide +kernel)
  case extendI32U =>
      change eval l s (.compose .vec2 [a, .u32 0])
        = ended l (.i64 (d.toValue l source).lo.toUInt32.toUInt64)
      rw [hword hsource, extendUnsigned]
      have hpair := eval_pair ha (eval_word l s 0)
      exact hpair
  case extendI32S =>
      change eval l s (.compose .vec2 [a, asU32 (.binary .shr (asI32 a) (.u32 31))])
        = ended l (.i64 (d.toValue l source).lo.toUInt32.toInt32.toInt64.toUInt64)
      rw [hword hsource, extendSigned]
      cases hsource
      have hdatum := ha.trans (congrArg Except.ok (fits_word hfits))
      have hpair := eval_pair ha (eval_signed_shift hdatum (eval_word l s 31))
      exact hpair
  all_goals
    cases hsource
    refine Eq.trans ?_ hend
    exact eval_intrinsic hop hargs rfl

theorem numericValue_i64_binary {m : Mnemonic} {a b : Expr} {d e : Datum}
    (hop : (NumericOp.mk .i64 m).IsInteger) (hknown : (binary 64 m 0 0).isSome = true)
    (ha : eval l s a = .ok d) (hb : eval l s b = .ok e)
    (hend : (evalNumeric l (NumericOp.mk .i64 m).name [d.toValue l .i64, e.toValue l .i64]).map
      (.ofValue l) = ended l (evalTyped l .i64 m (d.toValue l .i64) (e.toValue l .i64))) :
    numericValue l s ⟨.i64, m⟩ [a, b]
      = ended l (evalTyped l .i64 m (d.toValue l .i64) (e.toValue l .i64)) := by
  have hargs : List.Forall₂ (fun e d => eval l s e = .ok d) [a, b] [d, e] :=
    .cons ha (.cons hb .nil)
  have hsplit (d : Datum) : WordPair.split (d.toValue l .i64).lo = ⟨d.x, d.y⟩ :=
    WordPair.split_join ⟨d.x, d.y⟩
  cases m <;> cases hknown
  case add =>
      simp only [evalTyped, evalI64, hsplit, ended_pair]
      rw [numericValue]
      change (do return pairValue ⟨.i64, .add⟩ (← evalAll l s [a, b])) = _
      rw [evalAll_of_forall₂ hargs]
      rfl
  case sub =>
      simp only [evalTyped, evalI64, hsplit, ended_pair]
      rw [numericValue]
      change (do return pairValue ⟨.i64, .sub⟩ (← evalAll l s [a, b])) = _
      rw [evalAll_of_forall₂ hargs]
      rfl
  all_goals exact (numericValue_i64 hop rfl _).trans ((eval_intrinsic hop hargs rfl).trans hend)

theorem numericValue_i32_binary {m : Mnemonic} {a b : Expr} {d e : Datum}
    (hop : (NumericOp.mk .i32 m).IsInteger) (hknown : (binary 32 m 0 0).isSome = true)
    (hd : d.Fits l .i32) (he : e.Fits l .i32)
    (ha : eval l s a = .ok d) (hb : eval l s b = .ok e) :
    numericValue l s ⟨.i32, m⟩ [a, b]
      = ended l (evalTyped l .i32 m (d.toValue l .i32) (e.toValue l .i32)) := by
  have hlow (d : Datum) : (d.toValue l .i32).u32 = d.x := u32_toValue l (.inl rfl) d
  rw [numericValue_i32 hop, evalTyped, hlow, hlow]
  exact computed_i32_binary _ _ hknown (ha.trans (congrArg _ (fits_word hd)))
    (hb.trans (congrArg _ (fits_word he)))

/-- The code of an integer instruction computes what the backend evaluates it to. -/
theorem numericValue_eq_evalNumeric (hop : op.IsInteger)
    (hfits : FitsAll l op.signature.params ds)
    (hargs : List.Forall₂ (fun e d => eval l s e = .ok d) args ds) :
    numericValue l s op args
      = (evalNumeric l op.name (valuesOf l op.signature.params ds)).map (.ofValue l) := by
  have hwithin := within_valuesOf l hop.params hfits.length_eq
  have hlen := hwithin.length_eq.symm
  cases form_of_isInteger hop with
  | unary hsig hknown =>
      rw [hsig] at hfits hwithin ⊢
      obtain ⟨d, rfl, hd⟩ := hfits.of_single
      rw [hsig] at hlen
      obtain ⟨a, rfl⟩ := List.length_eq_one_iff.mp hargs.length_eq
      have ha := (List.forall₂_cons.mp hargs).1
      have hv : Within _ (d.toValue l _) := (List.forall₂_cons.mp hwithin).1
      obtain ⟨n, hn⟩ := exists_unary hknown _
      have hend := map_evalNumeric [] hop (by rw [hsig]; rfl)
        (evalTyped_unary l hop _ hv hn)
      obtain ⟨t, m⟩ := op
      rcases hop.type with rfl | rfl
      · exact (numericValue_i32_unary hop hknown rfl hd ha _).trans hend.symm
      · exact (numericValue_i64_unary hop hknown rfl hd ha hend).trans hend.symm
  | binary hsig hknown =>
      rw [hsig] at hfits hwithin ⊢
      obtain ⟨d, e, rfl⟩ := List.length_eq_two.mp hfits.length_eq.symm
      obtain ⟨a, b, rfl⟩ := List.length_eq_two.mp hargs.length_eq
      obtain ⟨ha, hrest⟩ := List.forall₂_cons.mp hargs
      have hb := (List.forall₂_cons.mp hrest).1
      obtain ⟨hd, hrest⟩ := List.forall₂_cons.mp hfits
      have he := (List.forall₂_cons.mp hrest).1
      obtain ⟨hv, hrest⟩ := List.forall₂_cons.mp hwithin
      have hw := (List.forall₂_cons.mp hrest).1
      obtain ⟨r, hr⟩ := exists_binary hknown _ _
      have hend := map_evalNumeric [_] hop (by rw [hsig]; rfl)
        (evalTyped_binary l hop hv hw hr)
      obtain ⟨t, m⟩ := op
      rcases hop.type with rfl | rfl
      · exact (numericValue_i32_binary hop hknown hd he ha hb).trans hend.symm
      · exact (numericValue_i64_binary hop hknown ha hb hend).trans hend.symm

end Code

/-! ## Emitted code -/

theorem exists_emitNumeric (ctx : Context) {op : NumericOp} (hshape : op.Shape) {t : ValueType}
    (ht : op.signature.results = [t]) {es : Emit.State} {below : TypeStack}
    (hstack : es.stack = below ++ op.signature.params) :
    ∃ es', emitNumeric ctx op es
        = .ok (numericStmts ctx.layout op
          ((slotNames below.length op.signature.params).map .var) (slotName below.length t), es')
      ∧ slotName below.length t ∈ es'.names ∧ es'.stack = below ++ [t] := by
  obtain ⟨u, hu⟩ := hshape.first
  have hknown : t.isKnown = true := by
    obtain ⟨t', ht', hknown⟩ := hshape.results
    rw [ht, List.cons.injEq] at ht'
    exact ht'.1 ▸ hknown
  have hlocals : AllKnown (default : WasmShader.Function).locals := nofun
  obtain ⟨_, es₁, hslots, -, hstack₁, rfl⟩ :=
    @slots_declares ctx _ below.length _ hshape.params es hlocals
  obtain ⟨_, es₂, hslot, -, hstack₂, rfl, hname⟩ :=
    @slot_declares ctx _ t hknown below.length { es₁ with stack := below ++ [t] } hlocals
  have hlength : es.stack.length = below.length + op.signature.params.length := by
    rw [hstack, List.length_append]
  have htop : Emitter.top ctx op.signature.params.length es
      = Emitter.slots ctx below.length op.signature.params es := by
    change (if es.stack.length < op.signature.params.length then Emitter.crash else
      Emitter.slots ctx (es.stack.length - op.signature.params.length)
        (es.stack.top op.signature.params.length)) es = _
    rw [if_neg (by omega), hlength, Nat.add_sub_cancel, hstack, stack_top_append below rfl]
  have hpop : Emitter.pop ctx op.signature.params.length es
      = .ok ((slotNames below.length op.signature.params).map .var, { es₁ with stack := below }) := by
    change (Emitter.top ctx op.signature.params.length es >>= fun r =>
      .ok (r.1, { r.2 with stack := r.2.stack.below op.signature.params.length })) = _
    rw [htop, hslots]
    change Except.ok (_, { es₁ with stack := es₁.stack.below op.signature.params.length }) = _
    rw [hstack₁, hstack, stack_below_append below rfl]
  refine ⟨es₂, ?_, hname, hstack₂⟩
  change (Emitter.pop ctx op.signature.params.length es >>= fun r => _) = _
  rw [hpop, ht]
  change (Emitter.slot ctx below.length t { es₁ with stack := below ++ [t] } >>= fun r => _) = _
  rw [hslot, entry, hu]
  rfl

/-- The code does to a state what the instruction gives: it puts a result into a variable, or
traps. -/
def Does (env : Env) (code : List Stmt) (s : State) (dst : String) (t : ValueType) :
    Except TrapCode Nat → Prop
  | .ok n => ∃ s', s.assign? dst (.ofValue env.exe.layout (value t n)) = some s'
      ∧ meaning env code s = some (.ok .next, s')
  | .error c => meaning env code s = some (.error (.trap c), s.trapped c)

/-- Code of an integer instruction on operands anywhere. -/
theorem does_numericStmts {env : Env} (henv : HasNumeric env) {op : NumericOp}
    (hop : op.IsInteger) {t : ValueType} {args : List Expr}
    {ds : List Datum} {s : State} {dst : String}
    (hfits : FitsAll env.exe.layout op.signature.params ds)
    (hargs : List.Forall₂ (fun e d => eval env.exe.layout s e = .ok d) args ds)
    (hdst : (s.vars.lookup dst).isSome = true) {r : Except TrapCode Nat}
    (hr : evalNumeric env.exe.layout op.name (valuesOf env.exe.layout op.signature.params ds)
      = ending t r) :
    Does env (numericStmts env.exe.layout op args dst) s dst t r := by
  have hvalue := numericValue_eq_evalNumeric hop hfits hargs
  rw [numericValue_eq hop.mem hfits hargs, hr] at hvalue
  cases r with
  | ok n =>
      obtain ⟨old, hold⟩ := Option.isSome_iff_exists.mp hdst
      obtain ⟨vars, hassign, -⟩ := Execution.State.assign?_of_lookup hold
        (.ofValue env.exe.layout (value t n))
      exact ⟨_, hassign, meaning_numeric_ok henv hop.mem hfits hargs hvalue hassign⟩
  | error c => exact meaning_numeric_trap hop.mem hfits hargs hvalue

/-- The code emitted for an integer instruction does what the backend evaluates the
instruction to, and both are what WebAssembly says. -/
theorem code_computes {env : Env} (henv : HasNumeric env) {ctx : Context}
    (hlayout : ctx.layout = env.exe.layout) {op : NumericOp} (hop : op.IsInteger)
    {es : Emit.State} {below : TypeStack} (hstack : es.stack = below ++ op.signature.params) :
    ∃ t code es', op.signature.results = [t] ∧ emitNumeric ctx op es = .ok (code, es')
      ∧ slotName below.length t ∈ es'.names ∧ es'.stack = below ++ [t]
      ∧ ∀ ds s, FitsAll env.exe.layout op.signature.params ds →
        Stand s (slotNames below.length op.signature.params) ds →
        (s.vars.lookup (slotName below.length t)).isSome = true →
        let values := valuesOf env.exe.layout op.signature.params ds
        ∃ r, denote op (values.map (·.lo.toNat)) = some r
          ∧ evalNumeric env.exe.layout op.name values = ending t r
          ∧ Does env code s (slotName below.length t) t r := by
  obtain ⟨t, ht, -⟩ := (shape_of_mem hop.mem).results
  obtain ⟨es', hemit, hname, hstack'⟩ := exists_emitNumeric ctx (shape_of_mem hop.mem) ht hstack
  rw [hlayout] at hemit
  refine ⟨t, _, es', ht, hemit, hname, hstack', fun ds s hfits hstand hdst => ?_⟩
  obtain ⟨r, hdenote, heval⟩ := evalNumeric_means env.exe.layout hop
    (within_valuesOf env.exe.layout hop.params hfits.length_eq)
  rw [ht] at heval
  exact ⟨r, hdenote, heval,
    does_numericStmts henv hop hfits (hstand.eval env.exe.layout) hdst heval⟩

/-- A sum whose low words carry. -/
theorem code_computes_carry :
    let l : Layout := ⟨false⟩
    let env := Structured.numericEnv l
    let s : State :=
      { lane := default
        vars := [(slotName 0 .i64, .ofWords .vec2 [0xffffffff, 0]),
          (slotName 1 .i64, .ofWords .vec2 [1, 0])] }
    ∃ code es', emitNumeric ⟨default, default, l, default, 0⟩ ⟨.i64, .add⟩
        { stack := [.i64, .i64] } = .ok (code, es')
      ∧ Does env code s (slotName 0 .i64) .i64 (.ok (2 ^ 32)) := by
  intro l env s
  have hop : (NumericOp.mk .i64 .add).IsInteger :=
    ⟨by decide +kernel, .inr rfl, by decide⟩
  have hlayout : (Context.mk default default l default 0).layout = env.exe.layout := rfl
  have hstack : ({ stack := [.i64, .i64] } : Emit.State).stack
      = [] ++ (NumericOp.mk .i64 .add).signature.params := rfl
  obtain ⟨t, code, es', ht, hemit, -, -, hcode⟩ :=
    code_computes (hasNumeric_numericEnv l) hlayout hop hstack
  obtain rfl : ValueType.i64 = t := List.head_eq_of_cons_eq ht
  have hslots : Stand s [slotName 0 .i64, slotName 1 .i64]
      [.ofWords .vec2 [0xffffffff, 0], .ofWords .vec2 [1, 0]] :=
    .cons rfl (.cons (by decide) .nil)
  have hfits : FitsAll l [.i64, .i64] [.ofWords .vec2 [0xffffffff, 0], .ofWords .vec2 [1, 0]] :=
    .cons rfl (.cons rfl .nil)
  obtain ⟨r, hr, -, hdoes⟩ := hcode _ s hfits hslots rfl
  obtain rfl : Except.ok (2 ^ 32) = r := Option.some.inj (Eq.trans (by rfl) hr)
  exact ⟨code, es', hemit, hdoes⟩

end Integer

end WasmShader
