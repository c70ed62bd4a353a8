import WasmShader.Proofs.Typing

/-!
# Well-nested code

Flat code is the flattening of a tree if every block, loop and conditional of the tree stands in it
between an instruction that opens it and one that closes it (`Flattening`). The tree has everything
that the code has: also what does nothing and what control never gets to, whose block types have to
stand for signatures like all others. There is at most one such tree (`Flattening.unique`).

Parsing takes exactly the flattenings of trees that are followed by a final end, and gives the tree
without what does nothing and without what control never gets to (`parse_wellNested`).
-/

namespace WasmShader

/-! ## Block types -/

/-- The signature has the types that the bytes of a function type stand for. Reference types stand
for none. -/
structure Signature.Names (sig : Signature) (t : Binary.FuncType) : Prop where
  params : t.params.map ValueType.ofByte? = sig.params.map some
  results : t.results.map ValueType.ofByte? = sig.results.map some

/-- The signatures that block types stand for: a block type is empty, a single value type, or the
index of a type without reference types. -/
inductive BlockType (types : List Binary.FuncType) : Int32 → Signature → Prop
  | empty : BlockType types (-64) ⟨[], []⟩
  | i32 : BlockType types (-1) ⟨[], [.i32]⟩
  | i64 : BlockType types (-2) ⟨[], [.i64]⟩
  | f32 : BlockType types (-3) ⟨[], [.f32]⟩
  | f64 : BlockType types (-4) ⟨[], [.f64]⟩
  | v128 : BlockType types (-5) ⟨[], [.v128]⟩
  | index {n : Int32} {k : Nat} {t : Binary.FuncType} {sig : Signature} : n.toInt = k →
      types[k]? = some t → sig.Names t → BlockType types n sig

theorem convertTypes_eq_ok_iff {bs : Bytes} {ts : List ValueType} :
    convertTypes bs = .ok ts ↔ bs.map ValueType.ofByte? = ts.map some := by
  induction bs generalizing ts with
  | nil =>
      rw [convertTypes, List.map_nil]
      cases ts <;> simp
  | cons b bs ih =>
      rw [convertTypes, List.map_cons]
      cases hb : ValueType.ofByte? b with
      | none => cases ts <;> simp
      | some t =>
          cases hbs : convertTypes bs with
          | error e =>
              cases ts with
              | nil => simp [bind, Except.bind]
              | cons u us =>
                  have hne : bs.map ValueType.ofByte? ≠ us.map some := fun h => by
                    rw [← ih, hbs] at h
                    cases h
                  simp [bind, Except.bind, hne]
          | ok us =>
              have hus := ih.mp hbs
              cases ts <;> simp [bind, Except.bind, pure, Except.pure, hus,
                (List.map_injective_iff.mpr (Option.some_injective _)).eq_iff]

theorem convertSignature_eq_ok_iff {t : Binary.FuncType} {sig : Signature} :
    convertSignature t = .ok sig ↔ sig.Names t := by
  constructor
  · intro h
    obtain ⟨params, hparams, h⟩ := Program.bind_eq_ok h
    obtain ⟨results, hresults, h⟩ := Program.bind_eq_ok h
    cases h
    exact ⟨convertTypes_eq_ok_iff.mp hparams, convertTypes_eq_ok_iff.mp hresults⟩
  · intro h
    rw [convertSignature, convertTypes_eq_ok_iff.mpr h.params, convertTypes_eq_ok_iff.mpr h.results]
    rfl

namespace Body

variable {types : List Binary.FuncType}

theorem blockSignature_eq_ok_iff {n : Int32} {sig : Signature} :
    blockSignature types n = .ok sig ↔ BlockType types n sig := by
  constructor
  · intro h
    have heq {m : Int32} (hm : n.toInt = m.toInt) : n = m := Int32.toInt_inj.mp hm
    unfold blockSignature at h
    dsimp only at h
    split at h
    · next hn => cases h; exact heq (m := -64) hn ▸ .empty
    split at h
    · next hn => cases h; exact heq (m := -1) hn ▸ .i32
    split at h
    · next hn => cases h; exact heq (m := -2) hn ▸ .i64
    split at h
    · next hn => cases h; exact heq (m := -3) hn ▸ .f32
    split at h
    · next hn => cases h; exact heq (m := -4) hn ▸ .f64
    split at h
    · next hn => cases h; exact heq (m := -5) hn ▸ .v128
    split at h
    · cases h
    · next hneg =>
      split at h
      · next t ht =>
        exact .index (by omega) ht (convertSignature_eq_ok_iff.mp h)
      · cases h
  · rintro (_ | _ | _ | _ | _ | _ | ⟨hn, ht, hsig⟩)
    case index =>
      unfold blockSignature
      dsimp only
      rw [hn, if_neg (by omega), if_neg (by omega), if_neg (by omega), if_neg (by omega),
        if_neg (by omega), if_neg (by omega), if_neg (by omega), Int.toNat_natCast, ht]
      exact convertSignature_eq_ok_iff.mpr hsig
    all_goals rfl

end Body

theorem BlockType.unique {types : List Binary.FuncType} {n : Int32} {sig sig' : Signature}
    (h : BlockType types n sig) (h' : BlockType types n sig') : sig = sig' := by
  have heq := Body.blockSignature_eq_ok_iff.mpr h
  rw [Body.blockSignature_eq_ok_iff.mpr h'] at heq
  exact (Except.ok.inj heq).symm

/-! ## Flattenings -/

/-- The operation opens, divides or closes a construct. -/
def Operation.isMark : Operation → Bool
  | .block | .loop | .ifElse | .elseMark | .endMark => true
  | _ => false

/-- The code is that of the tree: every construct stands between the instruction that opens it, with
a block type for its signature, and an end; an else divides one with an alternative. -/
inductive Flattening (types : List Binary.FuncType) : Body → List Instr → Prop
  | nil : Flattening types [] []
  | plain {i : Instr} {ns : Body} {code : List Instr} : i.operation.isMark = false →
      Flattening types ns code → Flattening types (.instr i :: ns) (i :: code)
  | block {start close : Instr} {type : Int32} {sig : Signature} {body ns : Body}
      {inner code : List Instr} : start.operation = .block ∨ start.operation = .loop →
      start.imm = .block type → BlockType types type sig → Flattening types body inner →
      close.operation = .endMark → Flattening types ns code →
      Flattening types (.block (start.operation = .loop) sig body :: ns)
        (start :: (inner ++ close :: code))
  | ifThen {start close : Instr} {type : Int32} {sig : Signature} {body ns : Body}
      {inner code : List Instr} : start.operation = .ifElse → start.imm = .block type →
      BlockType types type sig → Flattening types body inner → close.operation = .endMark →
      Flattening types ns code →
      Flattening types (.ifThen sig body :: ns) (start :: (inner ++ close :: code))
  | ifElse {start divide close : Instr} {type : Int32} {sig : Signature}
      {body alternative ns : Body} {inner other code : List Instr} : start.operation = .ifElse →
      start.imm = .block type → BlockType types type sig → Flattening types body inner →
      divide.operation = .elseMark → Flattening types alternative other →
      close.operation = .endMark → Flattening types ns code →
      Flattening types (.ifElse sig body alternative :: ns)
        (start :: (inner ++ divide :: (other ++ close :: code)))

/-- The code of a body: the flattening of the tree and one final end. -/
def Body.HasCode (types : List Binary.FuncType) (tree : Body) (instrs : List Instr) : Prop :=
  ∃ code final, Flattening types tree code ∧ final.operation = .endMark ∧ instrs = code ++ [final]

namespace Flattening

variable {types : List Binary.FuncType} {tree tree' : Body} {code code' rest rest' : List Instr}
  {mark mark' : Instr}

/-- Up to an end or else, code is the flattening of one tree at most, and it stops at one place at
most. -/
theorem unique_append (h : Flattening types tree code)
    (hmark : mark.operation = .endMark ∨ mark.operation = .elseMark)
    (h' : Flattening types tree' code')
    (hmark' : mark'.operation = .endMark ∨ mark'.operation = .elseMark)
    (heq : code ++ mark :: rest = code' ++ mark' :: rest') :
    tree = tree' ∧ mark = mark' ∧ rest = rest' := by
  induction h generalizing tree' code' mark mark' rest rest' with
  | nil =>
      cases h' with
      | nil =>
          obtain ⟨rfl, hrest⟩ := List.cons.inj heq
          exact ⟨rfl, rfl, hrest⟩
      | _ => grind [Operation.isMark]
  | plain hi _ ih =>
      cases h' with
      | plain hi' h' =>
          obtain ⟨rfl, hrest⟩ := List.cons.inj heq
          obtain ⟨rfl, hmarks⟩ := ih hmark h' hmark' hrest
          exact ⟨rfl, hmarks⟩
      | _ => grind [Operation.isMark]
  | block hop himm htype hbody hclose hcode ihBody ih =>
      cases h' with
      | block hop' himm' htype' hbody' hclose' hcode' =>
          simp only [List.cons_append, List.append_assoc] at heq
          obtain ⟨rfl, hrest⟩ := List.cons.inj heq
          obtain rfl : _ = _ := Immediate.block.inj (himm.symm.trans himm')
          obtain rfl := htype.unique htype'
          obtain ⟨rfl, rfl, hbehind⟩ := ihBody (.inl hclose) hbody' (.inl hclose') hrest
          obtain ⟨rfl, hmarks⟩ := ih hmark hcode' hmark' hbehind
          exact ⟨rfl, hmarks⟩
      | _ => clear ih ihBody; grind [Operation.isMark]
  | ifThen hop himm htype hbody hclose hcode ihBody ih =>
      cases h' with
      | ifThen hop' himm' htype' hbody' hclose' hcode' =>
          simp only [List.cons_append, List.append_assoc] at heq
          obtain ⟨rfl, hrest⟩ := List.cons.inj heq
          obtain rfl : _ = _ := Immediate.block.inj (himm.symm.trans himm')
          obtain rfl := htype.unique htype'
          obtain ⟨rfl, rfl, hbehind⟩ := ihBody (.inl hclose) hbody' (.inl hclose') hrest
          obtain ⟨rfl, hmarks⟩ := ih hmark hcode' hmark' hbehind
          exact ⟨rfl, hmarks⟩
      | ifElse hop' himm' htype' hbody' hdivide' hother' hclose' hcode' =>
          -- one of them comes to an end where the other comes to an else
          simp only [List.cons_append, List.append_assoc] at heq
          obtain ⟨rfl, hrest⟩ := List.cons.inj heq
          obtain ⟨-, rfl, -⟩ := ihBody (.inl hclose) hbody' (.inr hdivide') hrest
          rw [hclose] at hdivide'
          cases hdivide'
      | _ => clear ih ihBody; grind [Operation.isMark]
  | ifElse hop himm htype hbody hdivide hother hclose hcode ihBody ihOther ih =>
      cases h' with
      | ifThen hop' himm' htype' hbody' hclose' hcode' =>
          simp only [List.cons_append, List.append_assoc] at heq
          obtain ⟨rfl, hrest⟩ := List.cons.inj heq
          obtain ⟨-, rfl, -⟩ := ihBody (.inr hdivide) hbody' (.inl hclose') hrest
          rw [hdivide] at hclose'
          cases hclose'
      | ifElse hop' himm' htype' hbody' hdivide' hother' hclose' hcode' =>
          simp only [List.cons_append, List.append_assoc] at heq
          obtain ⟨rfl, hrest⟩ := List.cons.inj heq
          obtain rfl : _ = _ := Immediate.block.inj (himm.symm.trans himm')
          obtain rfl := htype.unique htype'
          obtain ⟨rfl, rfl, hafter⟩ := ihBody (.inr hdivide) hbody' (.inr hdivide') hrest
          obtain ⟨rfl, rfl, hbehind⟩ := ihOther (.inl hclose) hother' (.inl hclose') hafter
          obtain ⟨rfl, hmarks⟩ := ih hmark hcode' hmark' hbehind
          exact ⟨rfl, hmarks⟩
      | _ => clear ih ihBody ihOther; grind [Operation.isMark]

end Flattening

/-- A body has one tree at most. -/
theorem Body.HasCode.unique {types : List Binary.FuncType} {tree tree' : Body} {instrs : List Instr}
    (h : tree.HasCode types instrs) (h' : tree'.HasCode types instrs) : tree = tree' := by
  obtain ⟨code, final, hcode, hfinal, rfl⟩ := h
  obtain ⟨code', final', hcode', hfinal', heq⟩ := h'
  exact (hcode.unique_append (.inl hfinal) hcode' (.inl hfinal') heq).1

/-! ## What can run -/

/-- The node does nothing. -/
def Node.isNop : Node → Bool
  | .instr i => i.operation = .nop
  | _ => false

mutual

/-- The node without what does nothing and what control never gets to. -/
def Node.live : Node → Node
  | .instr i => .instr i
  | .block loop sig body => .block loop sig (Body.live body)
  | .ifThen sig body => .ifThen sig (Body.live body)
  | .ifElse sig body alternative => .ifElse sig (Body.live body) (Body.live alternative)

/-- The sequence without what does nothing, up to the first node that control does not pass. -/
def Body.live : Body → Body
  | [] => []
  | n :: ns =>
    if n.isNop then Body.live ns
    else if n.isTerminal then [n.live]
    else n.live :: Body.live ns

end

mutual

/-- No node does nothing, and none stands where control never gets to. -/
def Node.Tidy : Node → Prop
  | .instr _ => True
  | .block _ _ body => Body.Tidy body
  | .ifThen _ body => Body.Tidy body
  | .ifElse _ body alternative => Body.Tidy body ∧ Body.Tidy alternative

def Body.Tidy : Body → Prop
  | [] => True
  | n :: ns => n.isNop = false ∧ (n.isTerminal = true → ns = []) ∧ n.Tidy ∧ Body.Tidy ns

end

mutual

theorem Node.live_eq_self : (n : Node) → n.Tidy → n.live = n
  | .instr _, _ => rfl
  | .block loop sig body, h => by rw [Node.live, Body.live_eq_self body h]
  | .ifThen sig body, h => by rw [Node.live, Body.live_eq_self body h]
  | .ifElse sig body alternative, h => by
      rw [Node.live, Body.live_eq_self body h.1, Body.live_eq_self alternative h.2]

theorem Body.live_eq_self : (ns : Body) → ns.Tidy → ns.live = ns
  | [], _ => rfl
  | n :: ns, h => by
      obtain ⟨hnop, hterminal, hn, hns⟩ := h
      rw [Body.live, hnop, if_neg Bool.false_ne_true, Node.live_eq_self n hn]
      split
      · next hend => rw [hterminal hend]
      · rw [Body.live_eq_self ns hns]

end

/-! ## Parsing -/

namespace Body

variable {s : Source} {body tree : Body} {code instrs rest : List Instr} {start mark : Instr}
  {close : SeqEnd} {fuel : Nat}

/-- The operation that ends a sequence so. -/
def SeqEnd.operation : SeqEnd → Operation
  | .atEnd => .endMark
  | .atElse => .elseMark

theorem Source.signature_eq_ok_iff {sig : Signature} :
    s.signature start = .ok sig ↔ ∃ type, start.imm = .block type ∧ BlockType s.types type sig := by
  constructor
  · intro h
    unfold Source.signature at h
    split at h
    · next type himm =>
      exact ⟨type, himm, blockSignature_eq_ok_iff.mp (Program.liftFailure_eq_ok h)⟩
    · cases h
  · rintro ⟨type, himm, htype⟩
    have hsig := blockSignature_eq_ok_iff.mpr htype
    rw [Source.signature, himm]
    dsimp only
    rw [hsig]
    rfl

theorem parseSeq_mark (hmark : mark.operation = close.operation) :
    parseSeq s (fuel + 1) (mark :: rest) = .ok ([], close, rest) := by
  rw [parseSeq, hmark]
  cases close <;> rfl

theorem parseSeq_plain {i : Instr} {ns : Body} (hi : i.operation.isMark = false)
    (h : parseSeq s fuel instrs = .ok (ns.live, close, rest)) :
    parseSeq s (fuel + 1) (i :: instrs) = .ok (Body.live (.instr i :: ns), close, rest) := by
  rw [parseSeq, Body.live, Node.isNop, Node.isTerminal, Node.live]
  cases hop : i.operation with
  | nop => exact h
  | block | loop | ifElse | endMark | elseMark => rw [hop] at hi; cases hi
  | _ =>
      rw [h]
      rfl

theorem parseSeq_block {sig : Signature} {inner code : List Instr} {body ns : Body}
    (hop : start.operation = .block ∨ start.operation = .loop) (hsig : s.signature start = .ok sig)
    (hbody : parseSeq s fuel inner = .ok (body, .atEnd, code))
    (h : parseSeq s fuel code = .ok (ns, close, rest)) :
    parseSeq s (fuel + 1) (start :: inner)
      = .ok (.block (start.operation = .loop) sig body :: ns, close, rest) := by
  rw [parseSeq]
  rcases hop with hop | hop
  all_goals
    rw [hop]
    dsimp only
    rw [hsig]
    change (parseSeq s fuel inner >>= _) = _
    rw [hbody]
    change (parseSeq s fuel code >>= _) = _
    rw [h]
    rfl

theorem parseSeq_ifThen {sig : Signature} {inner code : List Instr} {body ns : Body}
    (hop : start.operation = .ifElse) (hsig : s.signature start = .ok sig)
    (hbody : parseSeq s fuel inner = .ok (body, .atEnd, code))
    (h : parseSeq s fuel code = .ok (ns, close, rest)) :
    parseSeq s (fuel + 1) (start :: inner) = .ok (.ifThen sig body :: ns, close, rest) := by
  rw [parseSeq, hop]
  dsimp only
  rw [hsig]
  change (parseSeq s fuel inner >>= _) = _
  rw [hbody]
  change (parseSeq s fuel code >>= _) = _
  rw [h]
  rfl

theorem parseSeq_ifElse {sig : Signature} {inner other code : List Instr}
    {body alternative ns : Body} (hop : start.operation = .ifElse)
    (hsig : s.signature start = .ok sig)
    (hbody : parseSeq s fuel inner = .ok (body, .atElse, other))
    (hother : parseSeq s fuel other = .ok (alternative, .atEnd, code))
    (h : parseSeq s fuel code = .ok (ns, close, rest)) :
    parseSeq s (fuel + 1) (start :: inner)
      = .ok (.ifElse sig body alternative :: ns, close, rest) := by
  rw [parseSeq, hop]
  dsimp only
  rw [hsig]
  change (parseSeq s fuel inner >>= _) = _
  rw [hbody]
  change (parseSeq s fuel other >>= _) = _
  rw [hother]
  change (parseSeq s fuel code >>= _) = _
  rw [h]
  rfl

/-- Up to the end or else that closes it, the flattening of a tree is read as what of it can run. -/
theorem parseSeq_of_flattening (h : Flattening s.types tree code) (close : SeqEnd)
    (hmark : mark.operation = close.operation) (hfuel : code.length < fuel) (rest : List Instr) :
    parseSeq s fuel (code ++ mark :: rest) = .ok (tree.live, close, rest) := by
  induction h generalizing fuel mark close rest with
  | nil =>
      obtain ⟨fuel, rfl⟩ := Nat.exists_eq_succ_of_ne_zero (Nat.ne_zero_of_lt hfuel)
      exact parseSeq_mark hmark
  | plain hi _ ih =>
      obtain ⟨fuel, rfl⟩ := Nat.exists_eq_succ_of_ne_zero (Nat.ne_zero_of_lt hfuel)
      rw [List.length_cons] at hfuel
      exact parseSeq_plain hi (ih close hmark (by omega) rest)
  | block hop himm htype _ hclose _ ihBody ih =>
      obtain ⟨fuel, rfl⟩ := Nat.exists_eq_succ_of_ne_zero (Nat.ne_zero_of_lt hfuel)
      rw [List.length_cons, List.length_append, List.length_cons] at hfuel
      rw [List.cons_append, List.append_assoc, List.cons_append]
      exact parseSeq_block hop (Source.signature_eq_ok_iff.mpr ⟨_, himm, htype⟩)
        (ihBody .atEnd hclose (by omega) _) (ih close hmark (by omega) rest)
  | ifThen hop himm htype _ hclose _ ihBody ih =>
      obtain ⟨fuel, rfl⟩ := Nat.exists_eq_succ_of_ne_zero (Nat.ne_zero_of_lt hfuel)
      rw [List.length_cons, List.length_append, List.length_cons] at hfuel
      rw [List.cons_append, List.append_assoc, List.cons_append]
      exact parseSeq_ifThen hop (Source.signature_eq_ok_iff.mpr ⟨_, himm, htype⟩)
        (ihBody .atEnd hclose (by omega) _) (ih close hmark (by omega) rest)
  | ifElse hop himm htype _ hdivide _ hclose _ ihBody ihOther ih =>
      obtain ⟨fuel, rfl⟩ := Nat.exists_eq_succ_of_ne_zero (Nat.ne_zero_of_lt hfuel)
      rw [List.length_cons, List.length_append, List.length_cons, List.length_append,
        List.length_cons] at hfuel
      rw [List.cons_append, List.append_assoc, List.cons_append, List.append_assoc,
        List.cons_append]
      exact parseSeq_ifElse hop (Source.signature_eq_ok_iff.mpr ⟨_, himm, htype⟩)
        (ihBody .atElse hdivide (by omega) _)
        (ihOther .atEnd hclose (by omega) _) (ih close hmark (by omega) rest)

theorem of_parseSeq_plain {i : Instr} (hi : i.operation.isMark = false)
    (h : parseSeq s (fuel + 1) (i :: instrs) = .ok (body, close, rest)) :
    ∃ ns, parseSeq s fuel instrs = .ok (ns, close, rest)
      ∧ ∀ tree : Body, ns = tree.live → body = Body.live (.instr i :: tree) := by
  rw [parseSeq] at h
  cases hop : i.operation with
  | nop =>
      rw [hop] at h
      exact ⟨body, h, fun tree htree => by simp [Body.live, Node.isNop, hop, htree]⟩
  | block | loop | ifElse | endMark | elseMark => rw [hop] at hi; cases hi
  | _ =>
      rw [hop] at h
      obtain ⟨⟨ns, close', rest'⟩, hns, h⟩ := Program.bind_eq_ok h
      cases h
      refine ⟨ns, hns, fun tree htree => ?_⟩
      simp [Body.live, Node.live, Node.isNop, Node.isTerminal, Operation.isTerminal, hop, htree]

/-- What is read as a sequence is the flattening of a tree, up to the end or else that closes it. -/
theorem flattening_of_parseSeq (h : parseSeq s fuel instrs = .ok (body, close, rest)) :
    ∃ tree code mark, Flattening s.types tree code ∧ mark.operation = close.operation
      ∧ instrs = code ++ mark :: rest ∧ body = tree.live := by
  induction fuel generalizing instrs body close rest with
  | zero => rw [parseSeq] at h; cases h
  | succ fuel ih =>
      cases instrs with
      | nil => unfold parseSeq at h; cases h
      | cons i instrs =>
          cases hmark : i.operation.isMark with
          | false =>
              obtain ⟨ns, hns, hbody⟩ := of_parseSeq_plain hmark h
              obtain ⟨tree, code, mark, hcode, hclose, rfl, htree⟩ := ih hns
              exact ⟨_, _, mark, .plain hmark hcode, hclose, rfl, hbody tree htree⟩
          | true =>
              rw [parseSeq] at h
              cases hop : i.operation with
              | endMark =>
                  rw [hop] at h
                  cases h
                  exact ⟨[], [], i, .nil, hop, rfl, rfl⟩
              | elseMark =>
                  rw [hop] at h
                  cases h
                  exact ⟨[], [], i, .nil, hop, rfl, rfl⟩
              | block | loop =>
                  rw [hop] at h
                  obtain ⟨sig, hsig, h⟩ := Program.bind_eq_ok h
                  obtain ⟨⟨inner, end', behind⟩, hinner, h⟩ := Program.bind_eq_ok h
                  cases end' with
                  | atElse => cases h
                  | atEnd =>
                      obtain ⟨⟨ns, close', rest'⟩, hns, h⟩ := Program.bind_eq_ok h
                      cases h
                      obtain ⟨type, himm, htype⟩ := Source.signature_eq_ok_iff.mp hsig
                      obtain ⟨tree, code, mark, hcode, hclose, rfl, rfl⟩ := ih hinner
                      obtain ⟨trees, codes, mark', hcodes, hclose', rfl, rfl⟩ := ih hns
                      refine ⟨_, _, mark', .block ?_ himm htype hcode hclose hcodes, hclose', ?_, ?_⟩
                      · simp [hop]
                      · simp
                      · simp [Body.live, Node.live, Node.isNop, Node.isTerminal, hop]
              | ifElse =>
                  rw [hop] at h
                  obtain ⟨sig, hsig, h⟩ := Program.bind_eq_ok h
                  obtain ⟨⟨inner, end', behind⟩, hinner, h⟩ := Program.bind_eq_ok h
                  obtain ⟨type, himm, htype⟩ := Source.signature_eq_ok_iff.mp hsig
                  obtain ⟨tree, code, mark, hcode, hclose, rfl, rfl⟩ := ih hinner
                  cases end' with
                  | atEnd =>
                      obtain ⟨⟨ns, close', rest'⟩, hns, h⟩ := Program.bind_eq_ok h
                      cases h
                      obtain ⟨trees, codes, mark', hcodes, hclose', rfl, rfl⟩ := ih hns
                      refine ⟨_, _, mark', .ifThen hop himm htype hcode hclose hcodes, hclose', ?_, ?_⟩
                      · simp
                      · simp [Body.live, Node.live, Node.isNop, Node.isTerminal]
                  | atElse =>
                      obtain ⟨⟨other, end', behind'⟩, hother, h⟩ := Program.bind_eq_ok h
                      cases end' with
                      | atElse => cases h
                      | atEnd =>
                          obtain ⟨⟨ns, close', rest'⟩, hns, h⟩ := Program.bind_eq_ok h
                          cases h
                          obtain ⟨tree', code', mark', hcode', hclose', rfl, rfl⟩ := ih hother
                          obtain ⟨trees, codes, final, hcodes, hfinal, rfl, rfl⟩ := ih hns
                          refine ⟨_, _, final,
                            .ifElse hop himm htype hcode hclose hcode' hclose' hcodes, hfinal, ?_, ?_⟩
                          · simp
                          · simp [Body.live, Node.live, Node.isNop, Node.isTerminal]
              | _ => rw [hop] at hmark; cases hmark

/-- Exactly the bodies with a tree are taken, and what is given is what of the tree can run. -/
theorem parse_eq_ok_iff {types : List Binary.FuncType} {body : Body} :
    parse types instrs = .ok body ↔ ∃ tree : Body, tree.HasCode types instrs ∧ tree.live = body := by
  constructor
  · intro h
    obtain ⟨⟨body', close, rest⟩, hseq, h⟩ := Program.bind_eq_ok h
    obtain ⟨tree, code, final, hcode, hfinal, heq, rfl⟩ := flattening_of_parseSeq hseq
    cases close with
    | atElse => cases h
    | atEnd =>
        cases rest with
        | cons i rest => cases h
        | nil =>
            cases h
            exact ⟨tree, ⟨code, final, hcode, hfinal, heq⟩, rfl⟩
  · rintro ⟨tree, ⟨code, final, hcode, hfinal, rfl⟩, rfl⟩
    have hseq : parseSeq ⟨types, (code ++ [final]).length⟩ ((code ++ [final]).length + 1)
        (code ++ [final]) = .ok (tree.live, .atEnd, []) :=
      parseSeq_of_flattening hcode .atEnd hfinal (by rw [List.length_append]; omega) []
    rw [parse, hseq]
    rfl

/-- Code is taken if and only if it is that of a tree. The tree is then the only one; what is given
is what of it can run, and the tree itself if all of it can. -/
theorem parse_wellNested (types : List Binary.FuncType) (instrs : List Instr) :
    ((∃ body, parse types instrs = .ok body) ↔ ∃ tree : Body, tree.HasCode types instrs)
    ∧ ∀ tree : Body, tree.HasCode types instrs →
        (∀ tree' : Body, tree'.HasCode types instrs → tree' = tree)
        ∧ parse types instrs = .ok tree.live
        ∧ (tree.Tidy → parse types instrs = .ok tree) := by
  refine ⟨⟨?_, ?_⟩, fun tree htree => ?_⟩
  · rintro ⟨body, h⟩
    obtain ⟨tree, htree, -⟩ := parse_eq_ok_iff.mp h
    exact ⟨tree, htree⟩
  · rintro ⟨tree, htree⟩
    exact ⟨tree.live, parse_eq_ok_iff.mpr ⟨tree, htree, rfl⟩⟩
  · have hparse := parse_eq_ok_iff.mpr ⟨tree, htree, rfl⟩
    refine ⟨fun tree' htree' => htree'.unique htree, hparse, fun htidy => ?_⟩
    rw [hparse, live_eq_self tree htidy]

/-- A loop where control never gets to, a conditional without an alternative, and one whose
alternative is empty. -/
def nestedCode : List Instr :=
  [⟨0x01, .none⟩,
    ⟨0x02, .block (-64)⟩, ⟨0x0C, .branch 0⟩, ⟨0x03, .block 0⟩, ⟨0x0B, .none⟩, ⟨0x0B, .none⟩,
    ⟨0x04, .block (-64)⟩, ⟨0x0B, .none⟩,
    ⟨0x04, .block (-64)⟩, ⟨0x01, .none⟩, ⟨0x05, .none⟩, ⟨0x0B, .none⟩,
    ⟨0x0B, .none⟩]

/-- The tree of `nestedCode`. -/
def nestedTree : Body :=
  [.instr ⟨0x01, .none⟩,
    .block false ⟨[], []⟩ [.instr ⟨0x0C, .branch 0⟩, .block true ⟨[.i32], []⟩ []],
    .ifThen ⟨[], []⟩ [],
    .ifElse ⟨[], []⟩ [.instr ⟨0x01, .none⟩] []]

theorem nestedTree_hasCode : nestedTree.HasCode [⟨[0x7F], []⟩] nestedCode := by
  have hloop : BlockType [⟨[0x7F], []⟩] 0 ⟨[.i32], []⟩ := .index (k := 0) rfl rfl ⟨rfl, rfl⟩
  have hdead : Flattening [⟨[0x7F], []⟩] [.block true ⟨[.i32], []⟩ []]
      (⟨0x03, .block 0⟩ :: ([] ++ [⟨0x0B, .none⟩])) :=
    @Flattening.block _ ⟨0x03, .block 0⟩ _ _ _ _ _ _ _ (.inr rfl) rfl hloop .nil rfl .nil
  have hbody : Flattening [⟨[0x7F], []⟩]
      [.instr ⟨0x0C, .branch 0⟩, .block true ⟨[.i32], []⟩ []]
      [⟨0x0C, .branch 0⟩, ⟨0x03, .block 0⟩, ⟨0x0B, .none⟩] := .plain rfl hdead
  have hifElse : Flattening [⟨[0x7F], []⟩] [.ifElse ⟨[], []⟩ [.instr ⟨0x01, .none⟩] []]
      (⟨0x04, .block (-64)⟩ :: ([⟨0x01, .none⟩] ++ ⟨0x05, .none⟩ :: ([] ++ [⟨0x0B, .none⟩]))) :=
    .ifElse rfl rfl .empty (.plain rfl .nil) rfl .nil rfl .nil
  have hifs : Flattening [⟨[0x7F], []⟩]
      [.ifThen ⟨[], []⟩ [], .ifElse ⟨[], []⟩ [.instr ⟨0x01, .none⟩] []]
      (⟨0x04, .block (-64)⟩ :: ([] ++ ⟨0x0B, .none⟩ ::
        [⟨0x04, .block (-64)⟩, ⟨0x01, .none⟩, ⟨0x05, .none⟩, ⟨0x0B, .none⟩])) :=
    .ifThen rfl rfl .empty .nil rfl hifElse
  exact ⟨nestedCode.dropLast, ⟨0x0B, .none⟩, .plain rfl
    (@Flattening.block _ ⟨0x02, .block (-64)⟩ _ _ _ _ _ _ _ (.inl rfl) rfl .empty hbody rfl hifs),
    rfl, rfl⟩

theorem parse_nestedCode : (nestedTree.HasCode [⟨[0x7F], []⟩] nestedCode
      ∧ parse [⟨[0x7F], []⟩] nestedCode
        = .ok [.block false ⟨[], []⟩ [.instr ⟨0x0C, .branch 0⟩], .ifThen ⟨[], []⟩ [],
            .ifElse ⟨[], []⟩ [] []])
    ∧ Body.Tidy [.ifThen ⟨[], []⟩ []]
    ∧ parse [] [⟨0x04, .block (-64)⟩, ⟨0x0B, .none⟩, ⟨0x0B, .none⟩]
      = .ok [.ifThen ⟨[], []⟩ []] := by
  have hcode : Body.HasCode [] [.ifThen ⟨[], []⟩ []]
      [⟨0x04, .block (-64)⟩, ⟨0x0B, .none⟩, ⟨0x0B, .none⟩] :=
    ⟨⟨0x04, .block (-64)⟩ :: ([] ++ [⟨0x0B, .none⟩]), ⟨0x0B, .none⟩,
      .ifThen rfl rfl .empty .nil rfl .nil, rfl, rfl⟩
  have htidy : Body.Tidy [.ifThen ⟨[], []⟩ []] := ⟨rfl, fun h => absurd h (by decide), trivial, trivial⟩
  exact ⟨⟨nestedTree_hasCode, ((parse_wellNested _ _).2 nestedTree nestedTree_hasCode).2.1⟩, htidy,
    ((parse_wellNested _ _).2 _ hcode).2.2 htidy⟩

end Body

end WasmShader
