import WasmShader.Proofs.Carrier

/-!
# Types of shader expressions

A shader value has whatever type the last operation gave it, and operators fail on types
they are not for. `typeOf` infers the type of an expression from the types of its
variables; an expression that has one evaluates to a value of that type, or traps where
arithmetic does. Numeric operations of the backend are typed for one instruction at a
time.
-/

namespace WasmShader

open Execution Shader

/-- The traps of numeric instructions. -/
def TrapCode.isArithmetic (c : TrapCode) : Bool :=
  c = .divByZero || c = .intOverflow || c = .invalidConversion

namespace Execution

/-! ## Values of a type -/

/-- The value has a type, and nothing in the words that the type does not use. -/
def Datum.Clean (ty : Ty) (d : Datum) : Prop := Datum.ofWords ty (d.words.take ty.words) = d

theorem Datum.Clean.type_eq {ty : Ty} {d : Datum} (h : Clean ty d) : d.type = ty := by
  rw [← h]; rfl

theorem Datum.fits_iff_clean {l : Layout} {t : ValueType} (ht : t.isKnown = true) {d : Datum} :
    Fits l t d ↔ Clean (Ty.carrier l t) d := by
  rw [Fits, Clean, stored, Layout.words_carrier l ht]

/-- The end of an evaluation: a value of a type, or an arithmetic trap. -/
def EndsIn (ty : Ty) : Except Stop Datum → Prop
  | .ok d => d.Clean ty
  | .error (.trap c) => c.isArithmetic = true
  | .error _ => False

/-! ## Operators -/

/-- The type of the result of a binary operator on a left operand of a type. -/
def binaryTy (op : BinaryOp) : Ty → Option Ty
  | .bool =>
    match op with
    | .logicalAnd | .logicalOr | .eq | .ne => some .bool
    | _ => none
  | .u32 =>
    match op with
    | .eq | .ne | .lt | .le | .gt | .ge => some .bool
    | .logicalAnd | .logicalOr => none
    | _ => some .u32
  | .i32 =>
    match op with
    | .eq | .ne | .lt | .le | .gt | .ge => some .bool
    | .and | .or | .xor | .logicalAnd | .logicalOr => none
    | _ => some .i32
  | .f32 => floatTy .f32
  | .f64 => floatTy .f64
  | .vec2 | .vec3 | .vec4 => none
where
  floatTy (t : Ty) : Option Ty :=
    match op with
    | .add | .sub | .mul | .div => some t
    | .eq | .ne | .lt | .le | .gt | .ge => some .bool
    | _ => none

/-- The type of the result of a unary operator on an operand of a type. -/
def unaryTy (op : UnaryOp) : Ty → Option Ty
  | .bool => if op = .not then some .bool else none
  | .u32 => intTy .u32
  | .i32 => intTy .i32
  | .f32 => floatTy .f32
  | .f64 => floatTy .f64
  | .vec2 | .vec3 | .vec4 => none
where
  intTy (t : Ty) : Option Ty :=
    match op with
    | .not | .neg | .clz | .ctz | .popcnt => some t
    | _ => none
  floatTy (t : Ty) : Option Ty :=
    match op with
    | .neg | .abs | .ceil | .floor | .trunc | .nearest | .sqrt => some t
    | _ => none

/-- The type of the result of a conversion between scalar types. -/
def convertTy (source target : Ty) : Option Ty :=
  if source.isVector then none
  else match target with
    | .f32 | .f64 => some target
    | _ => none

theorem binary_endsIn {op : BinaryOp} {a b : Datum} {ty : Ty} (h : binaryTy op a.type = some ty) :
    EndsIn ty (binary op a b) := by
  unfold binary
  cases hty : a.type <;> rw [hty] at h <;> cases op <;> cases h <;> rfl

theorem unary_endsIn {op : UnaryOp} {a : Datum} {ty ty' : Ty} (ha : a.Clean ty)
    (h : unaryTy op ty = some ty') : EndsIn ty' (unary op a) := by
  unfold unary
  rw [ha.type_eq]
  cases ty <;> cases op <;> cases h <;> first | rfl | (rw [← ha]; rfl)

theorem convert_endsIn {a : Datum} {ty target : Ty} (h : convertTy a.type target = some ty) :
    EndsIn ty (convert a target) := by
  unfold convert number?
  cases hty : a.type <;> rw [hty] at h <;> cases target <;> cases h <;> rfl

/-! ## Numeric operations of the backend -/

/-- An operation on values ends with a value of a type, or an arithmetic trap. -/
def Operated.EndsWith (t : ValueType) : Operated → Prop
  | some (.ok v) => v.type = t
  | some (.error c) => c.isArithmetic = true
  | none => False

theorem truncToI32_endsWith (x : Float) (signed : Bool) : (truncToI32 x signed).EndsWith .i32 := by
  unfold truncToI32
  dsimp only
  split
  · rfl
  · split
    · split <;> rfl
    · split <;> rfl

theorem truncToI64_endsWith (x : Float) (signed : Bool) : (truncToI64 x signed).EndsWith .i64 := by
  unfold truncToI64
  dsimp only
  split
  · rfl
  · split
    · split <;> rfl
    · split <;> rfl

theorem evalArith_endsWith {l : Layout} {m : Mnemonic}
    (hm : m = .add ∨ m = .sub ∨ m = .mul ∨ m = .div) (x y : Float) :
    (evalArith l m x y).EndsWith .f64 := by
  unfold evalArith
  rcases hm with rfl | rfl | rfl | rfl <;> (dsimp only; split <;> rfl)

theorem extreme_endsWith (of : Float → Float → Float) (x y : Float) :
    (extreme of x y).EndsWith .f64 := by
  unfold extreme
  split <;> rfl

/-- Every numeric instruction has an operation, whose result has the type that the
instruction gives. -/
theorem evalTyped_endsWith (l : Layout) {op : NumericOp} (hop : op ∈ NumericOp.table.toList)
    (v w : Value) :
    (evalTyped l op.type op.mnemonic v w).EndsWith (op.signature.results.headD .i32) := by
  obtain ⟨t, m⟩ := op
  cases t with
  | i32 =>
      cases m <;> dsimp only [evalTyped, evalI32] <;>
        first
        | rfl
        | exact truncToI32_endsWith _ _
        | (split <;> first | rfl | (split <;> rfl))
        | (exfalso; revert hop; decide +kernel)
  | i64 =>
      cases m <;> dsimp only [evalTyped, evalI64] <;>
        first
        | rfl
        | exact truncToI64_endsWith _ _
        | (split <;> first | rfl | (split <;> rfl))
        | (exfalso; revert hop; decide +kernel)
  | f32 =>
      cases m <;> dsimp only [evalTyped, evalF32] <;>
        first | rfl | (exfalso; revert hop; decide +kernel)
  | f64 =>
      cases m <;> dsimp only [evalTyped, evalF64] <;>
        first
        | rfl
        | exact evalArith_endsWith (by simp) _ _
        | exact extreme_endsWith _ _ _
        | (exfalso; revert hop; decide +kernel)
  | v128 =>
      have hne : ∀ op ∈ NumericOp.table.toList, op.type ≠ .v128 := by decide +kernel
      exact absurd rfl (hne _ hop)
  | reserved code =>
      have hknown : ∀ op ∈ NumericOp.table.toList, op.type.isKnown = true := by decide +kernel
      exact absurd (hknown _ hop) (by simp [ValueType.isKnown])

/-- The name of a numeric instruction is read as its type and mnemonic. -/
theorem name_reads {op : NumericOp} (hop : op ∈ NumericOp.table.toList) :
    4 ≤ op.name.toUTF8.toList.length
      ∧ operandType? (Text.ofBytes (op.name.toUTF8.toList.take 3)) = some op.type
      ∧ Mnemonic.ofName? (Text.ofBytes (op.name.toUTF8.toList.drop 4)) = some op.mnemonic := by
  have hall : ∀ op ∈ NumericOp.table.toList,
      (decide (4 ≤ op.name.toUTF8.toList.length)
        && operandType? (Text.ofBytes (op.name.toUTF8.toList.take 3)) = some op.type
        && Mnemonic.ofName? (Text.ofBytes (op.name.toUTF8.toList.drop 4)) = some op.mnemonic)
        = true := by decide +kernel
  have h := hall op hop
  simp only [Bool.and_eq_true, decide_eq_true_eq] at h
  exact ⟨h.1.1, h.1.2, h.2⟩

theorem copysign_params {op : NumericOp} (hop : op ∈ NumericOp.table.toList) :
    op.signature.params ≠ []
      ∧ (op.mnemonic = .copysign → op.signature.params.length = 2) := by
  have hall : ∀ op ∈ NumericOp.table.toList, (decide (op.signature.params ≠ [])
      && (op.mnemonic ≠ .copysign || op.signature.params.length = 2)) = true := by decide +kernel
  have h := hall op hop
  simp only [Bool.and_eq_true, Bool.or_eq_true, decide_eq_true_eq] at h
  exact ⟨h.1, fun hm => h.2.resolve_left (fun hne => hne hm)⟩

/-- The end of a numeric operation: a value of a type, or an arithmetic trap. -/
def ValueEnd (t : ValueType) : Except Stop Value → Prop
  | .ok v => v.type = t
  | .error (.trap c) => c.isArithmetic = true
  | .error _ => False

/-- On as many values as it takes, a numeric instruction is the operation of its type and
mnemonic. -/
theorem evalNumeric_eq (l : Layout) {op : NumericOp} (hop : op ∈ NumericOp.table.toList)
    {v : Value} {rest : List Value} (hlen : (v :: rest).length = op.signature.params.length)
    {r : Except TrapCode Value}
    (h : evalTyped l op.type op.mnemonic v (rest.headD (.zero op.type)) = some r) :
    evalNumeric l op.name (v :: rest) = r.mapError .trap := by
  obtain ⟨hbytes, htype, hmnemonic⟩ := name_reads hop
  have hcopysign := (copysign_params hop).2
  have hsign : ¬(some op.mnemonic = some Mnemonic.copysign ∧ rest = []) := by
    rintro ⟨hm, rfl⟩
    rw [hcopysign (Option.some.inj hm)] at hlen
    cases hlen
  unfold evalNumeric
  simp only [htype, hmnemonic, Option.bind_some, Bool.and_eq_true, List.isEmpty_iff,
    decide_eq_true_eq]
  rw [if_neg (by omega), if_neg (by omega), if_neg (fun h => hsign ⟨h.1.1, h.2⟩), h]
  cases r with
  | ok v => rfl
  | error code => rfl

/-- A numeric instruction on as many values as it takes. -/
theorem evalNumeric_end (l : Layout) {op : NumericOp} (hop : op ∈ NumericOp.table.toList)
    {values : List Value} (hlen : values.length = op.signature.params.length) :
    ValueEnd (op.signature.results.headD .i32) (evalNumeric l op.name values) := by
  cases values with
  | nil => exact absurd (List.length_eq_zero_iff.mp hlen.symm) (copysign_params hop).1
  | cons v rest =>
      have hend := evalTyped_endsWith l hop v (rest.headD (.zero op.type))
      cases hr : evalTyped l op.type op.mnemonic v (rest.headD (.zero op.type)) with
      | none => rw [hr] at hend; exact hend.elim
      | some r =>
          rw [hr] at hend
          rw [evalNumeric_eq l hop hlen hr]
          cases r with
          | ok v => exact hend
          | error code => exact hend

theorem operands_eq (l : Layout) {types : List ValueType} {ds : List Datum}
    (hknown : ∀ t ∈ types, t.isKnown = true) (hlen : ds.length = types.length) :
    operands l types ds = .ok (List.zipWith (fun t d => Datum.toValue l t d) types ds) := by
  induction types generalizing ds with
  | nil =>
      cases ds with
      | nil => rfl
      | cons d ds => cases hlen
  | cons t ts ih =>
      cases ds with
      | nil => cases hlen
      | cons d ds =>
          have hrest := ih (fun t ht => hknown t (List.mem_cons_of_mem _ ht)) (Nat.succ.inj hlen)
          have ht := hknown t List.mem_cons_self
          simp only [operands, ht, hrest, Bool.not_true, Bool.false_eq_true, if_false]
          rfl

/-! ## Expressions -/

mutual

/-- The type of an expression in the code of a numeric instruction, its variables having
the given types. -/
def typeOf (l : Layout) (op : NumericOp) (vars : List (String × Ty)) : Expr → Option Ty
  | .lit type words => if words.length = type.words then some type else none
  | .var name => vars.lookup name
  | .binary operator left right => do
    let a ← typeOf l op vars left
    let _ ← typeOf l op vars right
    binaryTy operator a
  | .unary operator x => do unaryTy operator (← typeOf l op vars x)
  | .select cond onTrue onFalse => do
    let _ ← typeOf l op vars cond
    let a ← typeOf l op vars onTrue
    let b ← typeOf l op vars onFalse
    if a = b then some a else none
  | .compose type parts => do
    let types ← typesOf l op vars parts
    if types.length = type.words then some type else none
  | .extract x index => do
    let _ ← typeOf l op vars x
    if index = 0 || index = 1 then some .u32 else none
  | .bitcast type x => do
    let a ← typeOf l op vars x
    if a.words = type.words then some type else none
  | .convert type x => do convertTy (← typeOf l op vars x) type
  | .intrinsic name args params _ => do
    let types ← typesOf l op vars args
    if name = op.name && params = op.signature.params && types.length = params.length then
      some (Ty.carrier l (op.signature.results.headD .i32))
    else none
  | .laneIndex | .load _ _ | .absent => none

/-- The types of expressions. -/
def typesOf (l : Layout) (op : NumericOp) (vars : List (String × Ty)) :
    List Expr → Option (List Ty)
  | [] => some []
  | e :: es => do
    let t ← typeOf l op vars e
    return t :: (← typesOf l op vars es)

end

/-- The end of an evaluation of several expressions. -/
def EndsInAll (types : List Ty) : Except Stop (List Datum) → Prop
  | .ok ds => List.Forall₂ Datum.Clean types ds
  | .error (.trap c) => c.isArithmetic = true
  | .error _ => False

theorem Datum.clean_ofWords {ty : Ty} {ws : List UInt32} (h : ws.length = ty.words) :
    Clean ty (ofWords ty ws) := by
  have hfour : ty.words ≤ 4 := by cases ty <;> decide
  rw [Clean, Datum.take_words_ofWords h hfour]

theorem Datum.Clean.bitcast {a ty : Ty} {d : Datum} (h : Clean a d) (hwords : a.words = ty.words) :
    Clean ty { d with type := ty } := by
  rw [Clean] at h
  rw [← h, hwords]
  have hfour : ty.words ≤ 4 := by cases ty <;> decide
  refine Datum.clean_ofWords ?_
  rw [List.length_take]
  exact Nat.min_eq_left hfour

/-- Goes on behind an evaluation that ends in a value of a type. -/
theorem EndsIn.bind {ty : Ty} {x : Except Stop Datum} {k : Datum → Except Stop Datum} {ty' : Ty}
    (h : EndsIn ty x) (hk : ∀ d, d.Clean ty → EndsIn ty' (k d)) : EndsIn ty' (x >>= k) := by
  match x, h with
  | .ok d, h => exact hk d h
  | .error (.trap c), h => exact h

theorem EndsIn.bindAll {ty : Ty} {x : Except Stop Datum} {k : Datum → Except Stop (List Datum)}
    {types : List Ty} (h : EndsIn ty x) (hk : ∀ d, d.Clean ty → EndsInAll types (k d)) :
    EndsInAll types (x >>= k) := by
  match x, h with
  | .ok d, h => exact hk d h
  | .error (.trap c), h => exact h

theorem EndsInAll.bind {types : List Ty} {x : Except Stop (List Datum)}
    {k : List Datum → Except Stop Datum} {ty : Ty} (h : EndsInAll types x)
    (hk : ∀ ds, List.Forall₂ Datum.Clean types ds → EndsIn ty (k ds)) : EndsIn ty (x >>= k) := by
  match x, h with
  | .ok ds, h => exact hk ds h
  | .error (.trap c), h => exact h

theorem EndsInAll.map {types types' : List Ty} {x : Except Stop (List Datum)}
    {k : List Datum → List Datum} (h : EndsInAll types x)
    (hk : ∀ ds, List.Forall₂ Datum.Clean types ds → List.Forall₂ Datum.Clean types' (k ds)) :
    EndsInAll types' (x >>= fun ds => .ok (k ds)) := by
  match x, h with
  | .ok ds, h => exact hk ds h
  | .error (.trap c), h => exact h

section Soundness

variable {l : Layout} {op : NumericOp} {vars : List (String × Ty)} {s : State}

mutual

/-- An expression that has a type ends in a value of it. -/
theorem eval_endsIn (hop : op ∈ NumericOp.table.toList)
    (hknown : ∀ t ∈ op.signature.params, t.isKnown = true)
    (hresult : (op.signature.results.headD .i32).isKnown = true)
    (hvars : ∀ name t, vars.lookup name = some t → ∃ d, s.lookup name = .ok d ∧ d.Clean t) :
    (e : Expr) → {ty : Ty} → typeOf l op vars e = some ty → EndsIn ty (eval l s e)
  | .lit type words, ty, h => by
      rw [typeOf] at h
      split at h
      · next hlen => cases h; rw [eval]; exact Datum.clean_ofWords hlen
      · cases h
  | .var name, ty, h => by
      rw [typeOf] at h
      obtain ⟨d, hd, hclean⟩ := hvars name ty h
      rw [eval, hd]
      exact hclean
  | .binary operator left right, ty, h => by
      rw [typeOf] at h
      obtain ⟨a, ha, h⟩ := Option.bind_eq_some_iff.mp h
      obtain ⟨b, hb, h⟩ := Option.bind_eq_some_iff.mp h
      rw [eval]
      refine (eval_endsIn hop hknown hresult hvars left ha).bind fun d hd => ?_
      refine (eval_endsIn hop hknown hresult hvars right hb).bind fun d' _ => ?_
      exact binary_endsIn (by rw [hd.type_eq]; exact h)
  | .unary operator x, ty, h => by
      rw [typeOf] at h
      obtain ⟨a, ha, h⟩ := Option.bind_eq_some_iff.mp h
      rw [eval]
      exact (eval_endsIn hop hknown hresult hvars x ha).bind fun d hd => unary_endsIn hd h
  | .select cond onTrue onFalse, ty, h => by
      rw [typeOf] at h
      obtain ⟨c, hc, h⟩ := Option.bind_eq_some_iff.mp h
      obtain ⟨a, ha, h⟩ := Option.bind_eq_some_iff.mp h
      obtain ⟨b, hb, h⟩ := Option.bind_eq_some_iff.mp h
      split at h
      · next heq =>
        cases h
        rw [eval]
        refine (eval_endsIn hop hknown hresult hvars cond hc).bind fun d _ => ?_
        split
        · exact eval_endsIn hop hknown hresult hvars onTrue ha
        · exact eval_endsIn hop hknown hresult hvars onFalse (heq ▸ hb)
      · cases h
  | .compose type parts, ty, h => by
      rw [typeOf] at h
      obtain ⟨types, htypes, h⟩ := Option.bind_eq_some_iff.mp h
      split at h
      · next hlen =>
        cases h
        rw [eval]
        refine (evalAll_endsIn hop hknown hresult hvars parts htypes).bind fun ds hds => ?_
        have hfour : type.words ≤ 4 := by cases type <;> decide
        have hlen' : ds.length = type.words := by rw [← hds.length_eq, hlen]
        rw [if_neg (by omega)]
        exact Datum.clean_ofWords (by rw [List.length_map]; exact hlen')
      · cases h
  | .extract x index, ty, h => by
      rw [typeOf] at h
      obtain ⟨a, ha, h⟩ := Option.bind_eq_some_iff.mp h
      split at h
      · next hindex =>
        cases h
        rw [eval]
        refine (eval_endsIn hop hknown hresult hvars x ha).bind fun d _ => ?_
        rw [Bool.or_eq_true, decide_eq_true_eq, decide_eq_true_eq] at hindex
        rcases hindex with rfl | rfl
        · change Datum.Clean .u32 (.ofU32 d.x); rfl
        · change Datum.Clean .u32 (.ofU32 d.y); rfl
      · cases h
  | .bitcast type x, ty, h => by
      rw [typeOf] at h
      obtain ⟨a, ha, h⟩ := Option.bind_eq_some_iff.mp h
      split at h
      · next hwords =>
        cases h
        rw [eval]
        exact (eval_endsIn hop hknown hresult hvars x ha).bind fun d hd => hd.bitcast hwords
      · cases h
  | .convert type x, ty, h => by
      rw [typeOf] at h
      obtain ⟨a, ha, h⟩ := Option.bind_eq_some_iff.mp h
      rw [eval]
      exact (eval_endsIn hop hknown hresult hvars x ha).bind fun d hd =>
        convert_endsIn (by rw [hd.type_eq]; exact h)
  | .intrinsic name args params results, ty, h => by
      rw [typeOf] at h
      obtain ⟨types, htypes, h⟩ := Option.bind_eq_some_iff.mp h
      split at h
      · next hmatch =>
        cases h
        simp only [Bool.and_eq_true, decide_eq_true_eq] at hmatch
        obtain ⟨⟨rfl, rfl⟩, hlen⟩ := hmatch
        rw [eval]
        refine (evalAll_endsIn hop hknown hresult hvars args htypes).bind fun ds hds => ?_
        have hds' : ds.length = op.signature.params.length := by rw [← hds.length_eq, hlen]
        rw [operands_eq l hknown hds']
        have hvalues : (List.zipWith (fun t d => Datum.toValue l t d) op.signature.params ds).length
            = op.signature.params.length := by rw [List.length_zipWith, hds', Nat.min_self]
        have hend := evalNumeric_end l hop hvalues
        change EndsIn _ (evalNumeric l op.name _ >>= fun v => .ok (Datum.ofValue l v))
        generalize evalNumeric l op.name _ = r at hend ⊢
        match r, hend with
        | .ok v, hv =>
            have hfits := Datum.fits_ofValue l v
            rw [ValueEnd] at hv
            rw [hv] at hfits
            exact (Datum.fits_iff_clean hresult).mp hfits
        | .error (.trap c), hc => exact hc
      · cases h
  | .laneIndex, ty, h => by rw [typeOf] at h; cases h
  | .load _ _, ty, h => by rw [typeOf] at h; cases h
  | .absent, ty, h => by rw [typeOf] at h; cases h

/-- Expressions that have types end in values of them. -/
theorem evalAll_endsIn (hop : op ∈ NumericOp.table.toList)
    (hknown : ∀ t ∈ op.signature.params, t.isKnown = true)
    (hresult : (op.signature.results.headD .i32).isKnown = true)
    (hvars : ∀ name t, vars.lookup name = some t → ∃ d, s.lookup name = .ok d ∧ d.Clean t) :
    (es : List Expr) → {types : List Ty} → typesOf l op vars es = some types →
    EndsInAll types (evalAll l s es)
  | [], types, h => by
      rw [typesOf] at h
      cases h
      rw [evalAll]
      exact List.Forall₂.nil
  | e :: es, types, h => by
      rw [typesOf] at h
      obtain ⟨t, ht, h⟩ := Option.bind_eq_some_iff.mp h
      obtain ⟨ts, hts, h⟩ := Option.bind_eq_some_iff.mp h
      cases h
      rw [evalAll]
      refine (eval_endsIn hop hknown hresult hvars e ht).bindAll fun d hd => ?_
      exact (evalAll_endsIn hop hknown hresult hvars es hts).map fun ds hds => .cons hd hds

end

end Soundness

end Execution

end WasmShader
