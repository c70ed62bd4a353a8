import WasmShader.Proofs.LaneCode

/-!
# Numbers on the stack

The constants that compiled code writes to the data words of a lane's stack are numbers of
blocks and of host functions. Values get there from variables and from the io words only, so the
constants can be read off the code (`Function.numbers`), and for every function of a module they
are known exactly: the function of a block writes the numbers of what its terminator leads to,
the entry point of a machine those of the exit block and of the first block, and everything else
writes none.
-/

namespace WasmShader

open Shader Emit

namespace Shader

/-- The variable that an address starts from. -/
def Expr.base? : Expr → Option String
  | .var name => some name
  | .binary _ left _ => left.base?
  | _ => none

/-- What a write puts into a data word of the stack, if it is a constant. -/
def storedNumbers (buffer : String) (index : Expr) : Expr → List UInt32
  | .lit _ words => if buffer = stackBuffer ∧ index.base? = some dataBase then words else []
  | _ => []

mutual

/-- The constants that a statement writes to data words of the stack, at any depth and in
order. -/
@[grind] def Stmt.numbers : Stmt → List UInt32
  | .store buffer index value => storedNumbers buffer index value
  | .ifElse _ body alternative => stmtsNumbers body ++ stmtsNumbers alternative
  | .block _ body | .loop _ body => stmtsNumbers body
  | .switch _ cases fallback => casesNumbers cases ++ stmtsNumbers fallback
  | .assign _ _ | .leave _ | .again _ | .ret _ | .call _ _ _ | .trap _ | .absent => []

@[grind] def stmtsNumbers : List Stmt → List UInt32
  | [] => []
  | s :: ss => s.numbers ++ stmtsNumbers ss

@[grind] def Case.numbers : Case → List UInt32
  | .mk _ body => stmtsNumbers body

@[grind] def casesNumbers : List Case → List UInt32
  | [] => []
  | c :: cs => c.numbers ++ casesNumbers cs

end

def Function.numbers (f : Shader.Function) : List UInt32 := stmtsNumbers f.body

theorem stmtsNumbers_append (ss ts : List Stmt) :
    stmtsNumbers (ss ++ ts) = stmtsNumbers ss ++ stmtsNumbers ts := by
  induction ss with
  | nil => rfl
  | cons s ss ih => rw [List.cons_append, stmtsNumbers, stmtsNumbers, ih, List.append_assoc]

theorem stmtsNumbers_singleton (s : Stmt) : stmtsNumbers [s] = s.numbers := by
  rw [stmtsNumbers, stmtsNumbers, List.append_nil]

theorem stmtsNumbers_eq_nil {ss : List Stmt} (h : ∀ s ∈ ss, s.numbers = []) :
    stmtsNumbers ss = [] := by
  induction ss with
  | nil => rfl
  | cons s ss ih =>
      rw [stmtsNumbers, h s (List.mem_cons_self ..),
        ih fun t ht => h t (List.mem_cons_of_mem _ ht), List.append_nil]

/-- A write to another buffer. -/
theorem storedNumbers_of_ne {buffer : String} (h : buffer ≠ stackBuffer) (index value : Expr) :
    storedNumbers buffer index value = [] := by
  cases value with
  | lit t words => exact if_neg fun hboth => h hboth.1
  | _ => rfl

/-! ## Code that writes elsewhere -/

section Lawful

variable {P : CallSite → Prop} {W : String → Prop}

mutual

theorem Stmt.Lawful.numbers (hW : ¬W stackBuffer) : {s : Stmt} → s.Lawful P W → s.numbers = []
  | .store buffer index value, h => by
      rw [Stmt.Lawful] at h
      rw [Stmt.numbers]
      exact storedNumbers_of_ne (fun hstack => hW (hstack ▸ h.1)) index value
  | .ifElse _ body alternative, h => by
      rw [Stmt.Lawful] at h
      rw [Stmt.numbers, StmtsLawful.numbers hW h.2.1, StmtsLawful.numbers hW h.2.2, List.append_nil]
  | .block _ body, h => by
      rw [Stmt.Lawful] at h
      rw [Stmt.numbers, StmtsLawful.numbers hW h]
  | .loop _ body, h => by
      rw [Stmt.Lawful] at h
      rw [Stmt.numbers, StmtsLawful.numbers hW h]
  | .switch _ cases fallback, h => by
      rw [Stmt.Lawful] at h
      rw [Stmt.numbers, CasesLawful.numbers hW h.2.1, StmtsLawful.numbers hW h.2.2, List.append_nil]
  | .assign .., _ | .leave .., _ | .again .., _ | .ret .., _ | .call .., _ | .trap .., _
  | .absent, _ => by rw [Stmt.numbers]

theorem StmtsLawful.numbers (hW : ¬W stackBuffer) : {ss : List Stmt} → StmtsLawful P W ss → stmtsNumbers ss = []
  | [], _ => rfl
  | s :: ss, h => by
      rw [StmtsLawful] at h
      rw [stmtsNumbers, Stmt.Lawful.numbers hW h.1, StmtsLawful.numbers hW h.2, List.append_nil]

theorem CasesLawful.numbers (hW : ¬W stackBuffer) : {cs : List Case} → CasesLawful P W cs →
    casesNumbers cs = []
  | [], _ => rfl
  | .mk _ body :: cs, h => by
      rw [CasesLawful, Case.Lawful] at h
      rw [casesNumbers, Case.numbers, StmtsLawful.numbers hW h.1, CasesLawful.numbers hW h.2,
        List.append_nil]

end

end Lawful

end Shader

namespace Emit

/-! ## Values and pushes -/

/-- The expression is no constant. -/
def IsComputed (e : Expr) : Prop := ∀ t words, e ≠ .lit t words

theorem isComputed_var (name : String) : IsComputed (.var name) := nofun

theorem isComputed_loadValue (l : Layout) (buffer : String) (place : Nat → Expr) (t : ValueType) :
    IsComputed (loadValue l buffer place t) := by
  unfold loadValue
  dsimp only
  split <;> exact nofun

theorem storedNumbers_of_isComputed {e : Expr} (h : IsComputed e) (buffer : String)
    (index : Expr) : storedNumbers buffer index e = [] := by
  cases e with
  | lit t words => exact absurd rfl (h t words)
  | _ => rfl

theorem numbers_storeValue (l : Layout) (buffer : String) (place : Nat → Expr) {v : Expr}
    (hv : IsComputed v) (t : ValueType) : ∀ s ∈ storeValue l buffer place v t, s.numbers = [] := by
  intro s hs
  have hstore {k : Nat} {x : Expr} (hx : IsComputed x) :
      (Stmt.store buffer (place k) x).numbers = [] := by
    rw [Stmt.numbers, storedNumbers_of_isComputed hx]
  unfold storeValue at hs
  dsimp only at hs
  split at hs
  · rw [List.mem_singleton.mp hs]
    exact hstore hv
  · rw [List.mem_singleton.mp hs]
    exact hstore nofun
  · rcases List.mem_cons.mp hs with rfl | hs
    · exact hstore nofun
    · rw [List.mem_singleton.mp hs]
      exact hstore nofun
  · obtain ⟨k, -, rfl⟩ := List.mem_map.mp hs
    exact hstore nofun

theorem base?_offset (base : Expr) (off : UInt32) : (offset base off).base? = base.base? := by
  unfold offset
  split <;> rfl

theorem Push.numbers_value (p : Push) (l : Layout) {v : Expr} (hv : IsComputed v)
    (t : ValueType) : stmtsNumbers (p.value l v t).stmts = stmtsNumbers p.stmts := by
  rw [Push.value, stmtsNumbers_append, stmtsNumbers_eq_nil (numbers_storeValue l _ _ hv t),
    List.append_nil]

theorem Push.numbers_blockId (p : Push) (id : BlockId) :
    stmtsNumbers (p.blockId id).stmts = stmtsNumbers p.stmts ++ [id.val] := by
  rw [Push.blockId, Push.word, stmtsNumbers_append, stmtsNumbers_singleton, Stmt.numbers]
  congr 1
  exact if_pos ⟨rfl, base?_offset _ _⟩

theorem Push.numbers_finish (p : Push) (stackWords : UInt32) :
    stmtsNumbers (p.finish stackWords) = stmtsNumbers p.stmts := by
  have hraise : (raiseSp p.size).numbers = [] := rfl
  rw [Push.finish, List.cons_append, stmtsNumbers, stmtsNumbers_append, stmtsNumbers_singleton,
    hraise, List.append_nil]
  rfl

/-! ## What a terminator leads to -/

/-- The number of a block of a machine, if it has one. -/
def BlockNumbers.get? (ids : BlockNumbers) (fn block : Nat) : Option BlockId :=
  ((ids.lookup fn).getD [])[block]?

theorem BlockNumbers.get_eq_ok {ids : BlockNumbers} {fn block : Nat} {id : BlockId} :
    ids.get fn block = .ok id ↔ ids.get? fn block = some id := by
  rw [BlockNumbers.get, BlockNumbers.get?, entry]
  cases ((ids.lookup fn).getD [])[block]? with
  | none => exact ⟨nofun, nofun⟩
  | some a => exact ⟨fun h => by cases h; rfl, fun h => by cases h; rfl⟩

/-- What control is handed to beside the blocks of the same machine: the first block of a callee
or a host function. -/
def BlockNumbers.callee (ids : BlockNumbers) : Terminator → List (Option BlockId)
  | .call callee _ _ _ => [ids.get? callee 0]
  | .host func _ _ _ => [some func.id]
  | _ => []

/-- The numbers of what a terminator of a function leads to. -/
def BlockNumbers.targets (ids : BlockNumbers) (fn : Nat) (t : Terminator) :
    List (Option BlockId) :=
  t.successors.map (ids.get? fn) ++ ids.callee t

/-- The words are the numbers that are listed. -/
def AreNumbers (words : List UInt32) (ids : List (Option BlockId)) : Prop :=
  words.map (fun w => some ⟨w⟩) = ids

theorem areNumbers_singleton {id : BlockId} {id? : Option BlockId} (h : id? = some id) :
    AreNumbers [id.val] [id?] := by
  rw [h]
  rfl

theorem AreNumbers.append {ws vs : List UInt32} {is js : List (Option BlockId)}
    (h : AreNumbers ws is) (h' : AreNumbers vs js) : AreNumbers (ws ++ vs) (is ++ js) := by
  rw [AreNumbers, List.map_append, h, h']

section Blocks

variable {bc : BlockContext} {b : Block}

theorem pushLocals_numbers (p : Push) (target : Payload) :
    Gives (bc.pushLocals p target) fun p' => stmtsNumbers p'.stmts = stmtsNumbers p.stmts := by
  unfold BlockContext.pushLocals
  induction target.locals generalizing p with
  | nil => exact .pure rfl
  | cons i is ih =>
      rw [List.foldlM_cons]
      refine .bind (Q := fun p' => stmtsNumbers p'.stmts = stmtsNumbers p.stmts) ?_ ?_
      · exact .bind (localVar_gives i) fun name _ => .bind (.lift _) fun t _ =>
          .pure (Push.numbers_value p _ (isComputed_var name) t)
      · exact fun p' hp' => (ih p').mono fun p'' h => h.trans hp'

theorem pushSlots_numbers (p : Push) (start : Nat) (types : List ValueType) :
    Gives (bc.pushSlots p start types) fun p' =>
      stmtsNumbers p'.stmts = stmtsNumbers p.stmts := by
  induction types generalizing p start with
  | nil => exact .pure rfl
  | cons t types ih =>
      rw [BlockContext.pushSlots]
      refine .bind (slot_gives start t) fun name _ => (ih _ (start + 1)).mono fun p' h => ?_
      rw [h, Push.numbers_value p _ (isComputed_var name)]

/-- An edge writes the number of the block that it leads to. -/
theorem emitEdge_numbers (e : Edge) (stack : TypeStack) :
    Gives (bc.emitEdge e stack) fun code =>
      AreNumbers (stmtsNumbers code) [bc.ids.get? bc.func.index e.target] := by
  unfold BlockContext.emitEdge
  refine .ite (fun _ => .crash_bind) fun _ => .bind (.lift _) fun payload _ => ?_
  refine .bind (pushLocals_numbers _ _) fun p₁ hp₁ => ?_
  refine .bind (pushSlots_numbers p₁ _ _) fun p₂ hp₂ => ?_
  refine .bind (pushSlots_numbers p₂ _ _) fun p₃ hp₃ => .bind (.lift _) fun id hid => .pure ?_
  rw [Push.numbers_finish, Push.numbers_blockId, hp₃, hp₂, hp₁]
  exact areNumbers_singleton (BlockNumbers.get_eq_ok.mp hid)

theorem emitEdges_numbers (stack : TypeStack) (i : Nat) (edges : List Edge) :
    Gives (bc.emitEdges stack i edges) fun cases =>
      AreNumbers (casesNumbers cases)
        (edges.map fun e => bc.ids.get? bc.func.index e.target) := by
  induction edges generalizing i with
  | nil => exact .pure rfl
  | cons e edges ih =>
      rw [BlockContext.emitEdges]
      refine .bind (emitEdge_numbers e stack) fun body hbody => ?_
      refine .bind (ih (i + 1)) fun rest hrest => .pure ?_
      rw [casesNumbers, Case.numbers]
      exact hbody.append hrest

/-- A transfer writes the number of the block to come back to, and then that of the callee. -/
theorem emitTransfer_numbers (stack : TypeStack) (n : Nat) (results : List ValueType)
    (next : Nat) (callee : BlockId) :
    Gives (bc.emitTransfer stack n results next callee) fun code =>
      AreNumbers (stmtsNumbers code) [bc.ids.get? bc.func.index next, some callee] := by
  unfold BlockContext.emitTransfer
  refine .ite (fun _ => .crash_bind) fun _ => .bind (.lift _) fun payload _ => ?_
  refine .bind (pushLocals_numbers _ _) fun p₁ hp₁ => ?_
  refine .bind (pushSlots_numbers p₁ _ _) fun p₂ hp₂ => .bind (.lift _) fun room _ => ?_
  refine .bind (.lift _) fun id hid => .bind (pushSlots_numbers _ _ _) fun p₃ hp₃ => .pure ?_
  have hroom : stmtsNumbers (p₂.reserve room).stmts = [] := hp₂.trans hp₁
  rw [Push.numbers_finish, Push.numbers_blockId, hp₃, Push.numbers_blockId, hroom]
  exact (areNumbers_singleton (BlockNumbers.get_eq_ok.mp hid)).append (areNumbers_singleton rfl)

theorem emitResults_numbers (room start off : Nat) (types : List ValueType) :
    Gives (bc.emitResults room start off types) fun code => stmtsNumbers code = [] := by
  induction types generalizing start off with
  | nil => exact .pure rfl
  | cons t types ih =>
      rw [BlockContext.emitResults]
      refine .bind (slot_gives start t) fun name _ => .bind (ih _ _) fun rest hrest => .pure ?_
      rw [stmtsNumbers_append, hrest, List.append_nil]
      exact stmtsNumbers_eq_nil (numbers_storeValue _ _ _ (isComputed_var name) t)

/-- The code of a terminator writes the numbers of what it leads to. -/
theorem emitTerminator_numbers (b : Block) :
    Gives (bc.emitTerminator b) fun code =>
      AreNumbers (stmtsNumbers code) (bc.ids.targets bc.func.index b.term) := by
  unfold BlockContext.emitTerminator
  cases b.term with
  | goto e => exact emitEdge_numbers e _
  | branch taken notTaken =>
      refine .bind (decision_gives _) fun r _ => ?_
      refine .bind (emitEdge_numbers taken _) fun body hbody => ?_
      refine .bind (emitEdge_numbers notTaken _) fun other hother => .pure ?_
      rw [stmtsNumbers_singleton, Stmt.numbers]
      exact hbody.append hother
  | switch cases fallback =>
      refine .bind (decision_gives _) fun r _ => ?_
      refine .bind (emitEdge_numbers fallback _) fun last hlast => ?_
      refine .bind (emitEdges_numbers _ _ cases) fun code hcode => .pure ?_
      rw [stmtsNumbers_singleton, Stmt.numbers]
      have htargets : bc.ids.targets bc.func.index (.switch cases fallback)
          = (cases.map fun e => bc.ids.get? bc.func.index e.target)
            ++ [bc.ids.get? bc.func.index fallback.target] := by
        simp [BlockNumbers.targets, BlockNumbers.callee, Terminator.successors, Terminator.edges,
          Terminator.next?]
      rw [htargets]
      exact hcode.append hlast
  | call callee args results next =>
      refine .bind (.lift _) fun first hfirst => (emitTransfer_numbers _ _ _ _ _).mono ?_
      intro code hcode
      rw [← BlockNumbers.get_eq_ok.mp hfirst] at hcode
      exact hcode
  | host func args results next => exact emitTransfer_numbers _ _ _ _ _
  | ret results =>
      refine .ite (fun _ => .crash_bind) fun _ => .bind (.lift _) fun room _ => ?_
      refine (emitResults_numbers _ _ _ _).mono fun code hcode => ?_
      rw [hcode]
      rfl
  | trap code => exact .pure rfl

theorem numbers_popFrame (l : Layout) (p : Payload) (vars : List String) :
    stmtsNumbers (popFrame l p vars) = [] := by
  refine stmtsNumbers_eq_nil fun s hs => ?_
  rcases List.mem_cons.mp hs with rfl | hs
  · rfl
  · obtain ⟨x, -, rfl⟩ := List.mem_map.mp hs
    rfl

theorem callable_any (ctx : Context) (f : WasmShader.Function) (instrs : List Instr) :
    Callable ctx f (fun _ => True) instrs :=
  ⟨trivial, trivial, fun _ _ _ _ _ _ _ => trivial⟩

/-- Code that writes to globals only. -/
theorem numbers_of_globals {P : CallSite → Prop} {code : List Stmt}
    (h : StmtsLawful P (· = globalsBuffer) code) : stmtsNumbers code = [] :=
  StmtsLawful.numbers (by decide) h

/-- The function of a block writes the numbers of what its terminator leads to. -/
theorem blockFunction_numbers {sf : Shader.Function} (h : bc.blockFunction b = .ok sf) :
    AreNumbers sf.numbers (bc.ids.targets bc.func.index b.term) := by
  obtain ⟨⟨code, es⟩, hrun, h⟩ := Program.bind_eq_ok h
  obtain ⟨id, -, h⟩ := Program.bind_eq_ok h
  cases h
  have hgives : Gives (bc.emitBlockBody b) fun code =>
      AreNumbers (stmtsNumbers code) (bc.ids.targets bc.func.index b.term) := by
    refine .bind (declare_gives spVar_not_mem _) fun _ _ => .bind (.lift _) fun payload _ => ?_
    refine .bind (Q := fun _ => True) ?_ fun vars _ => ?_
    · refine .bind (mapM_gives localVar_gives _) fun locals _ => ?_
      exact .bind (slotVars_gives b.entry #[] (by simp)) fun operands _ => .pure trivial
    refine .bind (setStack_gives _) fun _ _ => ?_
    -- The code of the block writes to globals only.
    refine .bind (emitSeq_gives (W := (· = globalsBuffer)) (callable_any _ _ _) rfl b.body
      fun _ h => h) fun inner hinner => ?_
    refine .bind (emitTerminator_numbers b) fun last hlast => .pure ?_
    have hread : readSp.numbers = [] := rfl
    have hwrite : writeSp.numbers = [] := rfl
    rw [stmtsNumbers_append, stmtsNumbers_append, stmtsNumbers_append, stmtsNumbers,
      numbers_popFrame, numbers_of_globals hinner, stmtsNumbers_singleton, hread, hwrite,
      List.append_nil]
    exact hlast
  exact (hgives _ _ _ hrun (by simp [State.Clear])).2

end Blocks

/-! ## The rest of a module -/

/-- A direct form writes to globals only. -/
theorem directFunction_numbers {ctx : Context} {f : WasmShader.Function} {sf : Shader.Function}
    (h : directFunction ctx f = .ok sf) : sf.numbers = [] :=
  numbers_of_globals (directFunction_lawful (W := (· = globalsBuffer)) h
    (fun _ _ => callable_any ctx f _) rfl).body

theorem numericFunctions_numbers : ∀ sf ∈ numericFunctions, sf.numbers = [] := fun sf hsf =>
  numbers_of_globals (numericFunctions_lawful (P := fun _ => True) sf hsf).body

theorem dispatcher_numbers (blocks : List (BlockId × String)) :
    (dispatcher blocks).numbers = [] :=
  numbers_of_globals (dispatcher_lawful (P := fun _ => True) fun _ _ => trivial).body

theorem exitBlock_numbers (l : Layout) (name : String) (results : List ValueType) :
    (exitBlock l name results).numbers = [] := by
  refine stmtsNumbers_eq_nil fun s hs => ?_
  rcases List.mem_append.mp hs with hs | hs
  · rcases List.mem_append.mp hs with hs | hs
    · rcases List.mem_cons.mp hs with rfl | hs
      · rfl
      · rw [List.mem_singleton.mp hs]
        rfl
    · obtain ⟨k, -, rfl⟩ := List.mem_map.mp hs
      rfl
  · rw [List.mem_singleton.mp hs]
    rfl

theorem isComputed_ioArgs (l : Layout) (params : List ValueType) :
    ∀ x ∈ ioArgs l params, IsComputed x.2 := by
  intro x hx
  obtain ⟨y, -, rfl⟩ := List.mem_map.mp hx
  exact isComputed_loadValue l _ _ _

/-- The header of the stack is no data word. -/
theorem entryStart_numbers : stmtsNumbers entryStart = [] := by
  refine stmtsNumbers_eq_nil fun s hs => ?_
  have hheader {place : Expr} (h : place.base? = some headerBase) :
      (Stmt.store stackBuffer place (.u32 0)).numbers = [] := by
    rw [Stmt.numbers]
    refine if_neg fun hboth => ?_
    rw [h] at hboth
    exact absurd hboth.2 (by decide)
  rcases List.mem_cons.mp hs with rfl | hs
  · rfl
  · rcases List.mem_cons.mp hs with rfl | hs
    · exact hheader rfl
    · rw [List.mem_singleton.mp hs]
      exact hheader (base?_offset _ _)

/-- The entry point of a machine writes the numbers of the exit block and of the first block. -/
theorem machineEntry_numbers (l : Layout) (name : String) (sig : Signature)
    (first exit : BlockId) (stackWords : UInt32) :
    (machineEntry l name sig first exit stackWords).numbers = [exit.val, first.val] := by
  have hframe : ∀ (args : List (ValueType × Expr)) (p : Push), (∀ x ∈ args, IsComputed x.2) →
      stmtsNumbers (args.foldl (fun p x => p.value l x.2 x.1) p).stmts
        = stmtsNumbers p.stmts := by
    intro args
    induction args with
    | nil => exact fun p _ => rfl
    | cons x args ih =>
        intro p hargs
        rw [List.foldl_cons, ih _ fun y hy => hargs y (List.mem_cons_of_mem _ hy),
          Push.numbers_value p l (hargs x (List.mem_cons_self ..))]
  rw [Function.numbers, machineEntry, stmtsNumbers_append, stmtsNumbers_append,
    stmtsNumbers_append, entryStart_numbers, Push.numbers_finish, Push.numbers_blockId,
    hframe _ _ (isComputed_ioArgs l sig.params), Push.numbers_blockId]
  rfl

theorem directEntry_numbers (l : Layout) (name callee : String) (sig : Signature) :
    (directEntry l name callee sig).numbers = [] := by
  have hstores : stmtsNumbers ((sig.results.zip (l.offsetsFrom 0 sig.results)).mapIdx
      fun i x => storeValue l ioBuffer (baseWord ioBase x.2) (.var (resultName i)) x.1).flatten
      = [] := by
    refine stmtsNumbers_eq_nil fun s hs => ?_
    obtain ⟨stores, hmem, hs⟩ := List.mem_flatten.mp hs
    obtain ⟨i, hi, rfl⟩ := List.mem_mapIdx.mp hmem
    exact numbers_storeValue l _ _ (isComputed_var _) _ s hs
  rw [Function.numbers, directEntry, stmtsNumbers_append, stmtsNumbers_append,
    entryStart_numbers]
  exact hstores

end Emit

end WasmShader
