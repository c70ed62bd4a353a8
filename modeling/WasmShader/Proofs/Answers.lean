import WasmShader.Proofs.AddressSpace

/-!
# Compilation answers

A computation with an `Abort` can end in three ways: with a result, with a failure, or with a
crash, when something it takes for granted does not hold. Every byte string is compiled or fails.
What a step takes for granted was established by the steps in front of it:

* decoding gives every instruction an immediate of its kind, so reading the tree of a body finds
  a block type where it needs one;
* checking reads immediates of formed instructions only, and looks at the stack only where it has
  compared its length;
* the types of a program have a representation, so laying out, carrying and encoding them never
  meets one that has none (`Program.Formed`);
* a checked body splits into blocks that lead to blocks of the machine only, so liveness, pruning
  and the frames find what they look up;
* a function waits while its component is searched, so the search never empties its stack;
* the steps behind the checks run on checked code, and fail for want of capacities and exports
  alone (`compile_cases`).
-/

namespace WasmShader

variable {α β : Type}

/-- The computation gives a result or fails. It does not crash. -/
def Answers (x : Except Abort α) : Prop :=
  (∃ a, x = .ok a) ∨ ∃ e, x = .error (.failed e)

namespace Answers

theorem ok (a : α) : Answers (.ok a) := .inl ⟨a, rfl⟩

theorem raise (e : Failure) : Answers (Failure.raise e : Except Abort α) := .inr ⟨e, rfl⟩

theorem lift (x : Except Failure α) : Answers (liftFailure x) := by
  cases x with
  | ok a => exact ok a
  | error e => exact raise e

theorem bind {x : Except Abort α} {k : α → Except Abort β} (hx : Answers x)
    (hk : ∀ a, x = .ok a → Answers (k a)) : Answers (x >>= k) := by
  rcases hx with ⟨a, rfl⟩ | ⟨e, rfl⟩
  · exact hk a rfl
  · exact raise e

theorem mapM {f : α → Except Abort β} {xs : List α} (h : ∀ x ∈ xs, Answers (f x)) :
    Answers (xs.mapM f) := by
  induction xs with
  | nil => exact ok []
  | cons x xs ih =>
      rw [List.mapM_cons]
      refine (h x List.mem_cons_self).bind fun _ _ => ?_
      exact (ih fun y hy => h y (List.mem_cons_of_mem _ hy)).bind fun _ _ => ok _

end Answers

/-! ## Reading a program -/

/-- An instruction that opens a block has a block type. -/
def Instr.hasBlockType (i : Instr) : Bool :=
  match i.operation, i.imm with
  | .block, .block _ | .loop, .block _ | .ifElse, .block _ => true
  | .block, _ | .loop, _ | .ifElse, _ => false
  | _, _ => true

theorem readImmediate_hasBlockType (opcode : UInt8) :
    Reader.Gives (Instr.readImmediate opcode)
      fun imm => (Instr.mk opcode imm).hasBlockType = true := by
  unfold Instr.readImmediate
  cases hop : Operation.ofOpcode opcode with
  | block | loop | ifElse =>
      exact .noting (.bind fun _ => .pure (by simp only [Instr.hasBlockType, Instr.operation, hop]))
  | _ =>
      intro bs imm rest _
      simp only [Instr.hasBlockType, Instr.operation, hop]

theorem readAll_hasBlockType {fuel : Nat} {bs : Bytes} {instrs : List Instr}
    (h : Instr.readAll fuel bs = .ok instrs) : ∀ i ∈ instrs, i.hasBlockType = true :=
  readAll_gives readImmediate_hasBlockType h

namespace Body

theorem Source.signature_answers {s : Source} {i : Instr} (hi : i.hasBlockType = true)
    (hop : i.operation = .block ∨ i.operation = .loop ∨ i.operation = .ifElse) :
    Answers (s.signature i) := by
  have himm : ∃ type, i.imm = .block type := by
    unfold Instr.hasBlockType at hi
    rcases hop with hop | hop | hop
    all_goals
      rw [hop] at hi
      cases himm : i.imm with
      | block type => exact ⟨type, rfl⟩
      | _ => rw [himm] at hi; cases hi
  obtain ⟨type, himm⟩ := himm
  rw [Source.signature, himm]
  exact .lift _

theorem parseSeq_answers {s : Source} {fuel : Nat} {instrs : List Instr}
    (h : ∀ i ∈ instrs, i.hasBlockType = true) : Answers (parseSeq s fuel instrs) := by
  induction fuel generalizing instrs with
  | zero => rw [parseSeq]; exact .raise _
  | succ fuel ih =>
      cases instrs with
      | nil => unfold parseSeq; exact .raise _
      | cons i instrs =>
          have hi := h i List.mem_cons_self
          have hrest : ∀ i ∈ instrs, i.hasBlockType = true :=
            fun i hi => h i (List.mem_cons_of_mem _ hi)
          -- What is left behind a sequence is code that the sequence did not take.
          have hleft {code rest : List Instr} {body : Body} {close : SeqEnd}
              (hcode : ∀ i ∈ code, i.hasBlockType = true)
              (h : parseSeq s fuel code = .ok (body, close, rest)) :
              ∀ i ∈ rest, i.hasBlockType = true := fun i hi =>
            hcode i ((parseSeq_sublist h).subset (List.mem_append_right _ hi))
          have hplain {k : Body × SeqEnd × List Instr → Body × SeqEnd × List Instr}
              {code : List Instr} (hcode : ∀ i ∈ code, i.hasBlockType = true) :
              Answers (parseSeq s fuel code >>= fun r => .ok (k r)) :=
            (ih hcode).bind fun _ _ => .ok _
          unfold parseSeq
          cases hop : i.operation with
          | endMark | elseMark => exact .ok _
          | nop => exact ih hrest
          | block | loop =>
              dsimp only
              refine (Source.signature_answers hi (by rw [hop]; simp)).bind fun sig _ => ?_
              refine (ih hrest).bind fun r hr => ?_
              obtain ⟨body, close, rest⟩ := r
              cases close with
              | atElse => exact .raise _
              | atEnd => exact hplain (hleft hrest hr)
          | ifElse =>
              dsimp only
              refine (Source.signature_answers hi (by rw [hop]; simp)).bind fun sig _ => ?_
              refine (ih hrest).bind fun r hr => ?_
              obtain ⟨body, close, rest⟩ := r
              cases close with
              | atEnd => exact hplain (hleft hrest hr)
              | atElse =>
                  refine (ih (hleft hrest hr)).bind fun r hr' => ?_
                  obtain ⟨alternative, close, rest'⟩ := r
                  cases close with
                  | atElse => exact .raise _
                  | atEnd => exact hplain (hleft (hleft hrest hr) hr')
          | _ => exact hplain hrest

theorem parse_answers {types : List Binary.FuncType} {instrs : List Instr}
    (h : ∀ i ∈ instrs, i.hasBlockType = true) : Answers (parse types instrs) := by
  refine (parseSeq_answers h).bind fun r _ => ?_
  obtain ⟨body, close, rest⟩ := r
  cases close with
  | atElse => exact .raise _
  | atEnd =>
      cases rest with
      | nil => exact .ok _
      | cons i rest => exact .raise _

end Body

namespace Program

/-- Every call that was read has a target. -/
theorem callSites_answers {body : Body} (h : ∀ i ∈ Body.instrs body, i.isFormed = true) :
    Answers body.callSites := by
  have hnone : ¬ ((Body.instrs body).any fun i =>
      i.operation = .call && i.callTarget?.isNone) = true := by
    rw [List.any_eq_true]
    rintro ⟨i, hi, hcall⟩
    obtain ⟨hop, hnone⟩ := Bool.and_eq_true_iff.mp hcall
    have hop := of_decide_eq_true hop
    have hformed := h i hi
    simp only [Instr.isFormed, Instr.callTarget?, hop] at hformed hnone
    cases himm : i.imm with
    | call target => rw [himm] at hnone; cases hnone
    | _ => rw [himm] at hformed; cases hformed
  unfold Body.callSites
  rw [if_neg hnone]
  exact .ok _

theorem functionOf_answers (m : Binary.Module) (types : List TypeEntry) (base pos : Nat)
    (typeIdx : UInt32) (code : Binary.FuncBody) :
    Answers (functionOf m types base pos typeIdx code) := by
  refine (Answers.lift _).bind fun t _ => ?_
  split
  · exact .ok _
  · dsimp only
    split
    · exact .ok _
    · cases hdecode : Instr.decodeAll code.code with
      | error e => exact .raise _
      | ok instrs =>
          dsimp only [Except.mapError, bind, Except.bind]
          rcases Body.parse_answers (readAll_hasBlockType hdecode) with ⟨body, h⟩ | ⟨e, h⟩
          · rw [h]
            have hformed (i : Instr) (hi : i ∈ Body.instrs body) :=
              readAll_formed hdecode i ((parse_sublist h).subset hi)
            exact (callSites_answers hformed).bind fun _ _ => .ok _
          · rw [h]; exact .raise _

theorem functionsOf_answers (m : Binary.Module) (types : List TypeEntry) (base pos : Nat)
    (codes : List (UInt32 × Binary.FuncBody)) : Answers (functionsOf m types base pos codes) := by
  induction codes generalizing pos with
  | nil => exact .ok _
  | cons c rest ih =>
      obtain ⟨typeIdx, code⟩ := c
      rw [functionsOf]
      exact (functionOf_answers m types base pos typeIdx code).bind fun _ _ =>
        (ih (pos + 1)).bind fun _ _ => .ok _

/-- Every module is a program or fails. -/
theorem ofModule_answers (m : Binary.Module) : Answers (ofModule m) := by
  rw [ofModule]
  split
  · exact .raise _
  · exact (Answers.lift _).bind fun _ _ => (Answers.lift _).bind fun _ _ =>
      (functionsOf_answers ..).bind fun _ _ => .ok _

/-! ## Checking -/

variable {p : Program} {f : Function}

theorem localType_answers {imm : Immediate} (h : ∃ idx, imm = .localVar idx) :
    Answers (localType f imm) := by
  obtain ⟨idx, rfl⟩ := h
  rw [localType]
  split
  · exact .ok _
  · exact .raise _

theorem globalAt_answers {imm : Immediate} (h : ∃ idx, imm = .globalVar idx) :
    Answers (p.globalAt f imm) := by
  obtain ⟨idx, rfl⟩ := h
  rw [globalAt]
  split
  · exact .ok _
  · exact .raise _

theorem calleeSignature_answers {imm : Immediate} (h : ∃ target, imm = .call target) :
    Answers (p.calleeSignature f imm) := by
  obtain ⟨target, rfl⟩ := h
  rw [calleeSignature]
  split
  · exact .ok _
  · exact .raise _

theorem indirectSignature_answers {imm : Immediate}
    (h : ∃ typeIdx table, imm = .callIndirect typeIdx table) :
    Answers (p.indirectSignature f imm) := by
  obtain ⟨typeIdx, table, rfl⟩ := h
  rw [indirectSignature]
  split
  · exact .raise _
  · split
    · exact .raise _
    · exact .ok _

theorem effect_answers {i : Instr} (hi : i.isFormed = true) (stack : TypeStack) :
    Answers (p.effect f i stack) := by
  rw [effect]
  unfold Instr.isFormed at hi
  cases hop : i.operation with
  | drop =>
      dsimp only
      split
      · exact .raise _
      · exact .ok _
  | select =>
      dsimp only
      split
      · exact .raise _
      · have hlt : stack.length - 2 < stack.length := by omega
        refine Answers.bind ?_ fun _ _ => .ok _
        rw [entry, List.getElem?_eq_getElem hlt]
        exact .ok _
  | localGet | localSet | localTee =>
      simp only [hop] at hi ⊢
      refine (localType_answers ?_).bind fun _ _ => .ok _
      cases himm : i.imm with
      | localVar idx => exact ⟨idx, rfl⟩
      | _ => rw [himm] at hi; cases hi
  | globalGet =>
      simp only [hop] at hi ⊢
      refine (globalAt_answers ?_).bind fun _ _ => .ok _
      cases himm : i.imm with
      | globalVar idx => exact ⟨idx, rfl⟩
      | _ => rw [himm] at hi; cases hi
  | globalSet =>
      simp only [hop] at hi ⊢
      refine (globalAt_answers ?_).bind fun found _ => ?_
      · cases himm : i.imm with
        | globalVar idx => exact ⟨idx, rfl⟩
        | _ => rw [himm] at hi; cases hi
      · obtain ⟨idx, g⟩ := found
        dsimp only
        split
        · exact .ok _
        · exact .raise _
  | call =>
      simp only [hop] at hi ⊢
      refine (calleeSignature_answers ?_).bind fun _ _ => .ok _
      cases himm : i.imm with
      | call target => exact ⟨target, rfl⟩
      | _ => rw [himm] at hi; cases hi
  | callIndirect =>
      simp only [hop] at hi ⊢
      refine (indirectSignature_answers ?_).bind fun _ _ => .ok _
      cases himm : i.imm with
      | callIndirect typeIdx table => exact ⟨typeIdx, table, rfl⟩
      | _ => rw [himm] at hi; cases hi
  | memoryAccess | block | loop | ifElse | elseMark | endMark | unknown =>
      dsimp only
      exact .raise _
  | _ => exact .ok _

theorem labelAt_answers (labels : Labels) (depth : UInt32) : Answers (labelAt f labels depth) := by
  rw [labelAt]
  split
  · exact .ok _
  · exact .raise _

theorem carries_answers (stack : TypeStack) (want : List ValueType) :
    Answers (carries f stack want) := by
  rw [carries]
  split
  · exact .raise _
  · exact .ok _

theorem checkLabels_answers (labels : Labels) (want : List ValueType) (depths : List UInt32) :
    Answers (checkLabels f labels want depths) := by
  induction depths with
  | nil => exact .ok _
  | cons depth rest ih =>
      rw [checkLabels]
      refine (labelAt_answers labels depth).bind fun types _ => ?_
      split
      · exact .raise _
      · exact ih

theorem checkInstr_answers {i : Instr} (hi : i.isFormed = true) (labels : Labels)
    (stack : TypeStack) : Answers (p.checkInstr f labels i stack) := by
  rw [checkInstr]
  refine (effect_answers hi stack).bind fun effect _ => (Answers.lift _).bind fun stack _ => ?_
  unfold Instr.isFormed at hi
  cases hop : i.operation with
  | br | brIf =>
      simp only [hop] at hi ⊢
      cases himm : i.imm with
      | branch depth =>
          exact (labelAt_answers labels depth).bind fun types _ =>
            (carries_answers stack types).bind fun _ _ => .ok _
      | _ => rw [himm] at hi; cases hi
  | brTable =>
      simp only [hop] at hi ⊢
      cases himm : i.imm with
      | branchTable depths fallback =>
          exact (labelAt_answers labels fallback).bind fun want _ =>
            (checkLabels_answers labels want depths).bind fun _ _ =>
              (carries_answers stack want).bind fun _ _ => .ok _
      | _ => rw [himm] at hi; cases hi
  | ret =>
      dsimp only
      exact (carries_answers stack f.type.results).bind fun _ _ => .ok _
  | _ => exact .ok _

mutual

theorem checkNode_answers : (n : Node) → n.Formed → (labels : Labels) → (stack : TypeStack) →
    Answers (p.checkNode f labels n stack)
  | .instr i, hformed, labels, stack => by
      rw [Node.Formed] at hformed
      rw [checkNode]
      exact checkInstr_answers hformed labels stack
  | .block loop sig body, hformed, labels, stack => by
      rw [Node.Formed] at hformed
      rw [checkNode]
      exact (Answers.lift _).bind fun _ _ =>
        (checkSeq_answers body hformed.2 ..).bind fun _ _ => .ok _
  | .ifThen sig body, hformed, labels, stack => by
      rw [Node.Formed] at hformed
      rw [checkNode]
      refine (Answers.lift _).bind fun _ _ => (Answers.lift _).bind fun _ _ => ?_
      split
      · exact .raise _
      · exact (checkSeq_answers body hformed.2 ..).bind fun _ _ => .ok _
  | .ifElse sig body alternative, hformed, labels, stack => by
      rw [Node.Formed] at hformed
      rw [checkNode]
      exact (Answers.lift _).bind fun _ _ => (Answers.lift _).bind fun _ _ =>
        (checkSeq_answers body hformed.2.1 ..).bind fun _ _ =>
          (checkSeq_answers alternative hformed.2.2 ..).bind fun _ _ => .ok _

theorem checkSeq_answers : (ns : List Node) → Body.Formed ns → (labels : Labels) →
    (results : List ValueType) → (stack : TypeStack) →
    Answers (p.checkSeq f labels results ns stack)
  | [], _, labels, results, stack => by
      rw [checkSeq]
      split
      · exact .ok _
      · exact .raise _
  | n :: ns, hformed, labels, results, stack => by
      rw [Body.Formed] at hformed
      rw [checkSeq]
      refine (checkNode_answers n hformed.1 labels stack).bind fun out _ => ?_
      cases out with
      | none => exact .ok _
      | some stack => exact checkSeq_answers ns hformed.2.2 labels results stack

end

/-- Every function that was read is checked or fails. -/
theorem check_answers (hp : p.Formed) (hf : f ∈ p.funcs) : Answers (p.check f) := by
  rw [check]
  split
  · exact .raise _
  · next body hbody => exact checkSeq_answers body (hp.body f hf body hbody) ..

end Program

/-! ## Compiling -/

namespace Compile

theorem unsupportedFunctions_answers {p : Program} (hp : p.Formed) (c : Config) :
    Answers (unsupportedFunctions c p) := by
  refine (Answers.mapM fun f hf => ?_).bind fun _ _ => .ok _
  rcases Program.check_answers hp hf with ⟨u, h⟩ | ⟨e, h⟩
  · rw [checkFunction, h]; exact .ok _
  · rw [checkFunction, h]
    dsimp only
    split
    · exact .ok _
    · exact .raise _

theorem validated_answers (out : Compiled) : Answers (validated out) := by
  rw [validated]
  cases out.module.validate with
  | ok u => exact .ok _
  | error e => exact .raise _

/-- Every program that was read is compiled or fails. -/
theorem compile_answers {p : Program} (hp : p.Formed) (config : Config) :
    Answers (compile config p) := by
  rcases unsupportedFunctions_answers hp config.withDefaults with ⟨unsupported, hu⟩ | ⟨e, he⟩
  · rcases compile_cases hp hu with ⟨out, -, -, -, -, -, -, -, heq⟩ | ⟨e, heq, -⟩
    · rw [heq]; exact validated_answers out
    · rw [heq]; exact .raise e
  · rw [compile, he]; exact .raise e

theorem readProgram_answers (data : Bytes) : Answers (readProgram data) := by
  rw [readProgram]
  split
  · exact .raise _
  · exact Program.ofModule_answers _

/-- Every byte string is compiled or fails, whatever the settings are. -/
theorem compileBinary_answers (config : Config) (data : Bytes) :
    Answers (compileBinary config data) := by
  refine (readProgram_answers data).bind fun p hread => compile_answers ?_ config
  rw [readProgram] at hread
  split at hread
  · cases hread
  · exact Program.formed_of_ofModule hread

end Compile

end WasmShader
