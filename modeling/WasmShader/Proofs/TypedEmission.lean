import WasmShader.Proofs.BlockRun

/-!
# Emission of typed code

Emission succeeds on every typed body, whether or not its code is ever run: the direct form
of a function that needs the machine is emitted too, with traps where it would call through
the machine or the host. What is emitted for a block leads to frames that have numbers, so
the function of a block succeeds as soon as the blocks are numbered.
-/

namespace WasmShader.Emit

/-- The context of emission for a program that is as one read from a module. -/
structure Context.Formed (ctx : Context) : Prop where
  program : ctx.program.Formed
  globals : ctx.globals = .ofProgram ctx.program ctx.layout

variable {ctx : Context} {f : Function} {labels : List Label} {outer : TypeStack} {es : State}

/-! ## Instructions -/

/-- A mutable global has a place. -/
theorem exists_offset {p : Program} (l : Layout) {i : Nat} {g : Global}
    (hg : p.globals[i]? = some g) (hm : g.isMutable = true) :
    ∃ off, (GlobalLayout.ofProgram p l).offsets.getD i none = some off := by
  have hsome : (p.globals.map fun g => Execution.Datum.ofValue l g.init)[i]?
      = some (.ofValue l g.init) := by
    rw [List.getElem?_map, hg]; rfl
  obtain ⟨front, -, hoff, -⟩ := GlobalLayout.offsetsFrom_of_mutable 0 _ hg hm hsome
  refine ⟨0 + front.length, ?_⟩
  rw [List.getD_eq_getElem?_getD]
  change ((GlobalLayout.offsetsFrom l 0 p.globals)[i]?).getD none = _
  rw [hoff]
  rfl

/-- Operands that are put one after the other. -/
theorem pushEach_emits {ts : List ValueType} (hts : AllKnown ts) (es : State) :
    Emits ctx f (forIn ts PUnit.unit fun t _ => do
        let _ ← Emitter.push ctx t
        return ForInStep.yield PUnit.unit) es fun _ es' =>
      es'.stack = es.stack ++ ts := by
  induction ts generalizing es with
  | nil => exact .pure (List.append_nil _).symm
  | cons t ts ih =>
      obtain ⟨ht, hts⟩ := List.forall_mem_cons.mp hts
      rw [List.forIn_cons]
      refine .bind (Q := fun step es' => step = ForInStep.yield PUnit.unit
        ∧ es'.stack = es.stack ++ [t]) ?_ ?_
      · refine .bind (push_emits ht es) ?_
        rintro _ es₁ - ⟨-, -, hstack₁⟩
        exact .pure ⟨rfl, hstack₁⟩
      · rintro _ es₁ - ⟨rfl, hstack₁⟩
        refine (ih hts es₁).mono fun _ es₂ _ hstack₂ => ?_
        rw [hstack₂, hstack₁, List.append_assoc]
        rfl

section Instr

variable {i : Instr} {rest : TypeStack} {t : ValueType}

theorem emitSkip_emits {pops pushes : List ValueType} {n : Nat} (hpushes : AllKnown pushes)
    (hn : pops.length = n) (hstack : es.stack = rest ++ pops) :
    Emits ctx f (emitSkip ctx n pushes) es fun _ es' => es'.stack = rest ++ pushes := by
  refine .bind (pop_emits hn hstack) ?_
  rintro _ es₁ - ⟨-, hstack₁⟩
  refine .bind (pushEach_emits hpushes es₁) ?_
  rintro - es₂ - hstack₂
  exact .pure (by rw [hstack₂, hstack₁])

theorem emitNumeric_total {op : NumericOp} (hop : op ∈ NumericOp.table.toList)
    (hstack : es.stack = rest ++ op.signature.params) :
    Emits ctx f (emitNumeric ctx op) es fun _ es' =>
      es'.stack = rest ++ op.signature.results := by
  obtain ⟨t, ht, hknown⟩ := (shape_of_mem hop).results
  obtain ⟨u, hu⟩ := (shape_of_mem hop).first
  unfold emitNumeric
  rw [ht]
  refine .bind (pop_emits rfl hstack) ?_
  rintro _ es₁ - ⟨-, hstack₁⟩
  refine .bind (entry_emits rfl es₁) ?_
  rintro _ _ - ⟨rfl, rfl⟩
  refine .bind (push_emits hknown es₁) ?_
  rintro _ es₂ - ⟨-, -, hstack₂⟩
  refine .bind (entry_emits hu es₂) ?_
  rintro _ _ - ⟨rfl, rfl⟩
  exact .pure (by rw [hstack₂, hstack₁])

theorem emitConstant_total {v : Value} (hv : v.type.isKnown = true) (es : State) :
    Emits ctx f (emitConstant ctx v) es fun _ es' => es'.stack = es.stack ++ [v.type] := by
  refine .bind (push_emits hv es) ?_
  rintro _ es₁ - ⟨-, -, hstack₁⟩
  exact .pure hstack₁

theorem emitSelect_total (hop : i.operation = .select) (hstack : es.stack = rest ++ [t, t, .i32]) :
    Emits ctx f (emitInstr ctx f labels i) es fun _ es' => es'.stack = rest ++ [t] := by
  have hlength : es.stack.length = rest.length + 3 := by
    rw [hstack, List.length_append]; rfl
  have hentry : es.stack[es.stack.length - 3]? = some t := by
    rw [hlength, hstack, Nat.add_sub_cancel, List.getElem?_append_right (Nat.le_refl _),
      Nat.sub_self]
    rfl
  unfold emitInstr
  simp only [hop]
  refine .bind_get (.of_known fun _ hknown => ?_)
  have ht := hknown t (List.mem_of_getElem? hentry)
  rw [if_neg (by omega)]
  refine .bind (entry_emits hentry es) ?_
  rintro _ _ - ⟨rfl, rfl⟩
  refine .bind (pop_emits rfl hstack) ?_
  rintro _ es₁ - ⟨rfl, hstack₁⟩
  refine .bind (push_emits ht es₁) ?_
  rintro _ es₂ - ⟨-, -, hstack₂⟩
  exact .pure (by rw [hstack₂, hstack₁])

/-! ### Variables -/

variable {idx : UInt32}

theorem emitLocalGet_total (hop : i.operation = .localGet) (himm : i.imm = .localVar idx)
    (ht : f.locals[idx.toNat]? = some t) :
    Emits ctx f (emitInstr ctx f labels i) es fun _ es' => es'.stack = es.stack ++ [t] := by
  unfold emitInstr
  simp only [hop, himm]
  refine .of_known fun hlocals _ => .bind (entry_emits ht es) ?_
  rintro _ _ - ⟨rfl, rfl⟩
  refine .bind (push_emits (hlocals t (List.mem_of_getElem? ht)) es) ?_
  rintro _ es₁ - ⟨-, -, hstack₁⟩
  refine .bind (localVar_emits ht es₁) ?_
  rintro _ es₂ - ⟨-, -, hstack₂⟩
  exact .pure (hstack₂.trans hstack₁)

theorem emitLocalSet_total (hop : i.operation = .localSet) (himm : i.imm = .localVar idx)
    (ht : f.locals[idx.toNat]? = some t) (hstack : es.stack = rest ++ [t]) :
    Emits ctx f (emitInstr ctx f labels i) es fun _ es' => es'.stack = rest := by
  unfold emitInstr
  simp only [hop, himm]
  refine .bind (pop1_emits hstack) ?_
  rintro _ es₁ - ⟨-, hstack₁⟩
  refine .bind (localVar_emits ht es₁) ?_
  rintro _ es₂ - ⟨-, -, hstack₂⟩
  exact .pure (hstack₂.trans hstack₁)

theorem emitLocalTee_total (hop : i.operation = .localTee) (himm : i.imm = .localVar idx)
    (ht : f.locals[idx.toNat]? = some t) (hstack : es.stack = rest ++ [t]) :
    Emits ctx f (emitInstr ctx f labels i) es fun _ es' => es'.stack = es.stack := by
  have hlast : es.stack.getLast? = some t := by
    rw [hstack]
    exact List.getLast?_concat
  unfold emitInstr
  simp only [hop, himm]
  refine .bind_get (.of_known fun _ hknown => ?_)
  rw [hlast]
  refine .bind (localVar_emits ht es) ?_
  rintro _ es₁ - ⟨-, -, hstack₁⟩
  refine .bind (slot_emits (hknown t (List.mem_of_getLast? hlast)) _ es₁) ?_
  rintro _ es₂ - ⟨-, -, hstack₂⟩
  exact .pure (hstack₂.trans hstack₁)

/-- Whether a global is read from the buffer or written as a constant, it is of its type. -/
theorem emitGlobalGet_total (hctx : ctx.Formed) (hop : i.operation = .globalGet)
    (himm : i.imm = .globalVar idx) {g : Global} (hg : ctx.program.globals[idx.toNat]? = some g) :
    Emits ctx f (emitInstr ctx f labels i) es fun _ es' => es'.stack = es.stack ++ [g.type] := by
  obtain ⟨hknown, htype⟩ := hctx.program.globalKnown g (List.mem_of_getElem? hg)
  unfold emitInstr
  simp only [hop, himm]
  refine .bind (globalPlace_emits hg) ?_
  rintro _ _ - ⟨rfl, rfl⟩
  cases ctx.globals.offsets.getD idx.toNat none with
  | none =>
      rw [← htype] at hknown ⊢
      exact emitConstant_total hknown es
  | some off =>
      refine .bind (push_emits hknown es) ?_
      rintro _ es₁ - ⟨-, -, hstack₁⟩
      exact .pure hstack₁

theorem emitGlobalSet_total (hctx : ctx.Formed) (hop : i.operation = .globalSet)
    (himm : i.imm = .globalVar idx) {g : Global} (hg : ctx.program.globals[idx.toNat]? = some g)
    (hm : g.isMutable = true) (hstack : es.stack = rest ++ [g.type]) :
    Emits ctx f (emitInstr ctx f labels i) es fun _ es' => es'.stack = rest := by
  obtain ⟨off, hoff⟩ := exists_offset ctx.layout hg hm
  rw [← hctx.globals] at hoff
  unfold emitInstr
  simp only [hop, himm]
  refine .bind (globalPlace_emits hg) ?_
  rintro _ _ - ⟨rfl, rfl⟩
  rw [hoff]
  refine .bind (pop1_emits hstack) ?_
  rintro _ es₁ - ⟨-, hstack₁⟩
  refine .bind (carrierOf_emits (hctx.program.globalKnown g (List.mem_of_getElem? hg)).1 es₁) ?_
  rintro _ _ - ⟨-, rfl⟩
  exact .pure hstack₁

/-! ### Calls -/

/-- A call is emitted whatever it may do: as a call of a direct form, or as a trap. -/
theorem emitCall_total (hctx : ctx.Formed) {target : Nat} {sig : Signature}
    (hsig : ctx.program.signature? target = some sig) (hstack : es.stack = rest ++ sig.params) :
    Emits ctx f (emitCall ctx f target) es fun _ es' => es'.stack = rest ++ sig.results := by
  have hresults := (known_of_signature? hctx.program hsig).results
  have hskip (code : TrapCode) : Emits ctx f (do
      emitSkip ctx sig.params.length sig.results
      return trapStmts code) es fun _ es' => es'.stack = rest ++ sig.results := by
    refine .bind (emitSkip_emits hresults rfl hstack) ?_
    rintro - es₁ - hstack₁
    exact .pure hstack₁
  unfold emitCall
  simp only [hsig, Option.getD_some]
  by_cases himport : ctx.program.isImport target = true
  · simp only [himport, if_true]
    exact hskip .unsupported
  · by_cases hcan : ctx.analysis.canCallDirect f.index target = true
    · simp only [himport, hcan, Bool.not_true, Bool.false_eq_true, if_false]
      refine .bind (pop_emits rfl hstack) ?_
      rintro _ es₁ - ⟨-, hstack₁⟩
      refine .bind (pushAll_emits hresults es₁) ?_
      rintro _ es₂ - ⟨-, -, hstack₂⟩
      exact .pure (by rw [hstack₂, hstack₁])
    · simp only [himport, hcan, Bool.not_false, Bool.false_eq_true, if_true, if_false]
      exact hskip .recursionUnavailable

theorem emitCallIndirect_total (hctx : ctx.Formed) {typeIdx table : UInt32}
    (hop : i.operation = .callIndirect) (himm : i.imm = .callIndirect typeIdx table)
    {t : TypeEntry} (ht : ctx.program.types[typeIdx.toNat]? = some t)
    (hstack : es.stack = rest ++ (t.sig.params ++ [.i32])) :
    Emits ctx f (emitInstr ctx f labels i) es fun _ es' => es'.stack = rest ++ t.sig.results := by
  unfold emitInstr
  simp only [hop, himm]
  refine .bind (entry_emits ht es) ?_
  rintro _ _ - ⟨rfl, rfl⟩
  have hresults := (hctx.program.typeKnown t (List.mem_of_getElem? ht)).results
  refine .bind (emitSkip_emits hresults (by rw [List.length_append]; rfl) hstack) ?_
  rintro - es₁ - hstack₁
  exact .pure hstack₁

theorem emitMemory_total (hop : i.operation = .memoryGrow) (hstack : es.stack = rest ++ [.i32]) :
    Emits ctx f (emitInstr ctx f labels i) es fun _ es' => es'.stack = rest ++ [.i32] := by
  unfold emitInstr
  simp only [hop]
  refine .bind (emitSkip_emits (.singleton rfl) rfl hstack) ?_
  rintro - es₁ - hstack₁
  exact .pure hstack₁

/-! ### Branches -/

variable {lab : Label} {depth : UInt32}

theorem emitBrIf_total (hop : i.operation = .brIf) (himm : i.imm = .branch depth)
    (hlab : labels[depth.toNat]? = some lab) (hstack : es.stack = rest ++ lab.types ++ [.i32]) :
    Emits ctx f (emitInstr ctx f labels i) es fun _ es' => es'.stack = rest ++ lab.types := by
  unfold emitInstr
  simp only [hop, himm]
  refine .bind (pop1_emits hstack) ?_
  rintro _ es₁ - ⟨-, hstack₁⟩
  refine .bind (emitBranch_emits hlab hstack₁) ?_
  rintro _ es₂ - ⟨-, -, hstack₂⟩
  exact .pure (hstack₂.trans hstack₁)

theorem emitBrTable_total {depths : List UInt32} (hop : i.operation = .brTable)
    (himm : i.imm = .branchTable depths depth) (hlab : labels[depth.toNat]? = some lab)
    (hdepths : ∀ d ∈ depths, ∃ lab', labels[d.toNat]? = some lab' ∧ lab'.types = lab.types)
    (hstack : es.stack = rest ++ lab.types ++ [.i32]) :
    Emits ctx f (emitInstr ctx f labels i) es fun _ _ => True := by
  unfold emitInstr
  simp only [hop, himm]
  refine .bind (pop1_emits hstack) ?_
  rintro _ es₁ - ⟨-, hstack₁⟩
  refine .bind (emitBranch_emits hlab hstack₁) ?_
  rintro _ es₂ - ⟨-, -, hstack₂⟩
  refine .bind (emitCases_emits hdepths 0 (hstack₂.trans hstack₁)) ?_
  rintro _ es₃ - -
  exact .pure trivial

/-- The operands behind typed code, if control gets there. -/
def LeavesStack (outer : TypeStack) (out : Option TypeStack) (es : State) : Prop :=
  ∀ mid, out = some mid → es.stack = outer ++ mid

theorem LeavesStack.of_stack {mid : TypeStack} (h : es.stack = outer ++ mid) :
    LeavesStack outer (some mid) es := by
  rintro _ ⟨⟩
  exact h

theorem LeavesStack.never : LeavesStack outer none es := nofun

/-- Emission of a typed instruction succeeds. -/
theorem emitInstr_total (hctx : ctx.Formed) {ltypes : Program.Labels}
    (hlabels : labels.map (·.types) = ltypes) {types : TypeStack} {out : Option TypeStack}
    (h : Program.TypedInstr ctx.program f ltypes i types out) (hstack : es.stack = outer ++ types) :
    Emits ctx f (emitInstr ctx f labels i) es fun _ es' => LeavesStack outer out es' := by
  have hlabel {depth : UInt32} {carried : List ValueType}
      (hd : ltypes[depth.toNat]? = some carried) :
      ∃ lab, labels[depth.toNat]? = some lab ∧ lab.types = carried := by
    rw [← hlabels, List.getElem?_map] at hd
    exact Option.map_eq_some_iff.mp hd
  -- What stands above the operands around the instruction is grouped as its rule has it.
  have hleft {ts us : TypeStack} (h : es.stack = outer ++ (ts ++ us)) :
      es.stack = outer ++ ts ++ us := h.trans (List.append_assoc ..).symm
  have hleaves {ts us : TypeStack} {x : Emitter (List Shader.Stmt)}
      (h : Emits ctx f x es fun _ es' => es'.stack = outer ++ ts ++ us) :
      Emits ctx f x es fun _ es' => LeavesStack outer (some (ts ++ us)) es' :=
    h.mono fun _ _ _ hs => .of_stack (hs.trans (List.append_assoc ..))
  cases h with
  | numeric hop =>
      unfold emitInstr
      simp only [hop]
      exact hleaves (emitNumeric_total (mem_table_of_operation hop) (hleft hstack))
  | nop hop =>
      unfold emitInstr
      simp only [hop]
      exact .pure (.of_stack hstack)
  | unreachable hop =>
      unfold emitInstr
      simp only [hop]
      exact .pure .never
  | @constant v _ hv =>
      have hcode := hleaves (hstack ▸ emitConstant_total hv.known es)
      unfold emitInstr
      cases hv with
      | i32 hop himm => simp only [hop, himm]; exact hcode
      | i64 hop himm => simp only [hop, himm]; exact hcode
      | f32 hop himm => simp only [hop, himm]; exact hcode
      | f64 hop himm => simp only [hop, himm]; exact hcode
      | v128 hop himm => simp only [hop, himm]; exact hcode
  | drop hop =>
      unfold emitInstr
      simp only [hop]
      refine .bind (pop1_emits (hleft hstack)) ?_
      rintro _ es₁ - ⟨-, hstack₁⟩
      exact .pure (.of_stack hstack₁)
  | select hop => exact hleaves (emitSelect_total hop (hleft hstack))
  | localGet hop himm ht => exact hleaves (hstack ▸ emitLocalGet_total hop himm ht)
  | localSet hop himm ht =>
      exact (emitLocalSet_total hop himm ht (hleft hstack)).mono fun _ _ _ hs => .of_stack hs
  | localTee hop himm ht =>
      exact (emitLocalTee_total hop himm ht (hleft hstack)).mono fun _ _ _ hs =>
        .of_stack (hs.trans hstack)
  | globalGet hop himm hg => exact hleaves (hstack ▸ emitGlobalGet_total hctx hop himm hg)
  | globalSet hop himm hg hm =>
      exact (emitGlobalSet_total hctx hop himm hg hm (hleft hstack)).mono fun _ _ _ hs =>
        .of_stack hs
  | call hop himm hsig =>
      unfold emitInstr
      simp only [hop, himm]
      exact hleaves (emitCall_total hctx hsig (hleft hstack))
  | callIndirect hop himm ht =>
      exact hleaves (emitCallIndirect_total hctx hop himm ht (hleft hstack))
  | memorySize hop =>
      unfold emitInstr
      simp only [hop]
      refine .bind (push_emits rfl es) ?_
      rintro _ es₁ - ⟨-, -, hstack₁⟩
      exact .pure (.of_stack (by rw [hstack₁, hstack, List.append_assoc]))
  | memoryGrow hop => exact hleaves (emitMemory_total hop (hleft hstack))
  | br hop himm hd =>
      obtain ⟨lab, hlab, rfl⟩ := hlabel hd
      unfold emitInstr
      simp only [hop, himm]
      exact (emitBranch_emits hlab (hleft hstack)).mono fun _ _ _ _ => .never
  | brIf hop himm hd =>
      obtain ⟨lab, hlab, rfl⟩ := hlabel hd
      rw [← List.append_assoc, ← List.append_assoc] at hstack
      exact hleaves (emitBrIf_total hop himm hlab hstack)
  | brTable hop himm hd hdepths =>
      obtain ⟨lab, hlab, rfl⟩ := hlabel hd
      rw [← List.append_assoc, ← List.append_assoc] at hstack
      exact (emitBrTable_total hop himm hlab (fun depth hmem => hlabel (hdepths depth hmem))
        hstack).mono fun _ _ _ _ => .never
  | ret hop =>
      unfold emitInstr
      simp only [hop]
      refine .bind (top_emits rfl (hleft hstack)) ?_
      rintro _ es₁ - -
      exact .pure .never

end Instr

/-! ## Bodies -/

/-- Emission of a sequence succeeds wherever it is typed. -/
def SeqEmits (ctx : Context) (f : Function) (ns : List Node) : Prop :=
  ∀ {labels : List Label} {ltypes : Program.Labels} {outer types : TypeStack}
    {results : List ValueType} {es : State}, labels.map (·.types) = ltypes →
    Program.TypedSeq ctx.program f ltypes ns types results → es.stack = outer ++ types →
    Emits ctx f (emitSeq ctx f labels ns) es fun _ _ => True

section Nodes

variable {ltypes : Program.Labels} {types : TypeStack} {out : Option TypeStack} {sig : Signature}
  {body : List Node}

/-- Behind a construct are its results. -/
theorem setStack_leaves {α : Type} {mid : TypeStack} (hsig : sig.Known)
    (hknown : AllKnown (outer ++ mid ++ sig.params)) (a : α) (es : State) :
    Emits ctx f (do setStack (outer ++ mid ++ sig.results); return a) es
      fun _ es' => LeavesStack outer (some (mid ++ sig.results)) es' := by
  refine .bind (setStack_emits (known_behind hsig hknown) es) ?_
  rintro - _ - rfl
  exact .pure (.of_stack (List.append_assoc ..))

theorem emitBlock_total (hcode : SeqEmits ctx f body) {loop : Bool}
    (hlabels : labels.map (·.types) = ltypes)
    (h : Program.TypedNode ctx.program f ltypes (.block loop sig body) types out)
    (hstack : es.stack = outer ++ types) :
    Emits ctx f (emitNode ctx f labels (.block loop sig body)) es
      fun _ es' => LeavesStack outer out es' := by
  cases h with
  | block hsig hbody =>
      rw [← List.append_assoc] at hstack
      refine .of_known fun _ hknown => ?_
      rw [emitNode]
      refine .bind (outerStack_emits rfl hstack) ?_
      rintro _ _ - ⟨rfl, rfl⟩
      refine .bind (newLabel_emits es) ?_
      rintro name es₁ - ⟨-, -, hstack₁⟩
      refine .bind (hcode (by rw [List.map_cons, hlabels]) hbody (hstack₁.trans hstack)) ?_
      rintro - es₂ - -
      exact setStack_leaves hsig (hstack ▸ hknown) _ es₂

theorem emitIfThen_total (hcode : SeqEmits ctx f body) (hlabels : labels.map (·.types) = ltypes)
    (h : Program.TypedNode ctx.program f ltypes (.ifThen sig body) types out)
    (hstack : es.stack = outer ++ types) :
    Emits ctx f (emitNode ctx f labels (.ifThen sig body)) es
      fun _ es' => LeavesStack outer out es' := by
  cases h with
  | ifThen hsig heq hbody =>
      rw [← List.append_assoc, ← List.append_assoc] at hstack
      refine .of_known fun _ hknown => ?_
      rw [emitNode]
      refine .bind (pop1_emits hstack) ?_
      rintro _ es₀ - ⟨-, hstack₀⟩
      refine .bind (outerStack_emits rfl hstack₀) ?_
      rintro _ _ - ⟨rfl, rfl⟩
      refine .bind (newLabel_emits es₀) ?_
      rintro name es₁ - ⟨-, -, hstack₁⟩
      refine .bind (hcode (by rw [List.map_cons, hlabels]) hbody (hstack₁.trans hstack₀)) ?_
      rintro - es₂ - -
      exact setStack_leaves hsig (hstack ▸ hknown).of_append.1 _ es₂

theorem emitIfElse_total {alternative : List Node} (hcode : SeqEmits ctx f body)
    (hother : SeqEmits ctx f alternative) (hlabels : labels.map (·.types) = ltypes)
    (h : Program.TypedNode ctx.program f ltypes (.ifElse sig body alternative) types out)
    (hstack : es.stack = outer ++ types) :
    Emits ctx f (emitNode ctx f labels (.ifElse sig body alternative)) es
      fun _ es' => LeavesStack outer out es' := by
  cases h with
  | ifElse hsig hbody halternative =>
      rw [← List.append_assoc, ← List.append_assoc] at hstack
      refine .of_known fun _ hknown => ?_
      have hfront := (hstack ▸ hknown : AllKnown (_ ++ sig.params ++ _)).of_append.1
      rw [emitNode]
      refine .bind (pop1_emits hstack) ?_
      rintro _ es₀ - ⟨-, hstack₀⟩
      refine .bind_get ?_
      refine .bind (outerStack_emits rfl hstack₀) ?_
      rintro _ _ - ⟨rfl, rfl⟩
      refine .bind (newLabel_emits es₀) ?_
      rintro name es₁ - ⟨-, -, hstack₁⟩
      refine .bind (hcode (by rw [List.map_cons, hlabels]) hbody (hstack₁.trans hstack₀)) ?_
      rintro - es₂ - -
      refine .bind (setStack_emits (hstack₀ ▸ hfront) es₂) ?_
      rintro - es₃ - rfl
      refine .bind (hother (by rw [List.map_cons, hlabels]) halternative hstack₀) ?_
      rintro - es₄ - -
      exact setStack_leaves hsig hfront _ es₄

end Nodes

mutual

/-- Emission of a typed node succeeds. -/
theorem emitNode_total (hctx : ctx.Formed) : (n : Node) →
    {labels : List Label} → {ltypes : Program.Labels} → {outer types : TypeStack} →
    {out : Option TypeStack} → {es : State} → labels.map (·.types) = ltypes →
    Program.TypedNode ctx.program f ltypes n types out → es.stack = outer ++ types →
    Emits ctx f (emitNode ctx f labels n) es fun _ es' => LeavesStack outer out es'
  | .instr i, labels, ltypes, outer, types, out, es, hlabels, h, hstack => by
      cases h with
      | instr hi =>
          rw [emitNode]
          exact emitInstr_total hctx hlabels hi hstack
  | .block loop sig body, labels, ltypes, outer, types, out, es, hlabels, h, hstack =>
      emitBlock_total (emitSeq_total hctx body) hlabels h hstack
  | .ifThen sig body, labels, ltypes, outer, types, out, es, hlabels, h, hstack =>
      emitIfThen_total (emitSeq_total hctx body) hlabels h hstack
  | .ifElse sig body alternative, labels, ltypes, outer, types, out, es, hlabels, h, hstack =>
      emitIfElse_total (emitSeq_total hctx body) (emitSeq_total hctx alternative) hlabels h hstack

/-- Emission of a typed sequence succeeds. -/
theorem emitSeq_total (hctx : ctx.Formed) :
    (ns : List Node) → {labels : List Label} → {ltypes : Program.Labels} →
    {outer types : TypeStack} → {results : List ValueType} → {es : State} →
    labels.map (·.types) = ltypes → Program.TypedSeq ctx.program f ltypes ns types results →
    es.stack = outer ++ types → Emits ctx f (emitSeq ctx f labels ns) es fun _ _ => True
  | [], labels, ltypes, outer, types, results, es, hlabels, h, hstack => by
      rw [emitSeq]
      exact .pure trivial
  | n :: ns, labels, ltypes, outer, types, results, es, hlabels, h, hstack => by
      rw [emitSeq]
      cases h with
      | @cons _ _ _ _ mid _ hn hns =>
          refine .bind (emitNode_total hctx n hlabels hn hstack) ?_
          rintro - es₁ - hmid
          refine .bind (emitSeq_total hctx ns hlabels hns (hmid mid rfl)) ?_
          rintro - es₂ - -
          exact .pure trivial
      | last hn =>
          refine .bind (emitNode_total hctx n hlabels hn hstack) ?_
          rintro - es₁ - -
          rw [emitSeq]
          exact .pure trivial

end

/-! ## Functions -/

/-- A checked function has a direct form. -/
theorem directFunction_total (hctx : ctx.Formed) (hknown : f.type.Known ∧ AllKnown f.locals)
    {body : Body} (hbody : f.body = .ok body)
    (hlocals : ∃ declared, f.locals = f.type.params ++ declared)
    (htyped : Program.TypedSeq ctx.program f [f.type.results] body [] f.type.results) :
    ∃ fn, directFunction ctx f = .ok fn := by
  have hemits : Emits ctx f (emitDirectBody ctx f body) {} fun _ _ => True := by
    unfold emitDirectBody
    refine .bind (emitParams_emits hlocals {}) ?_
    rintro - es₁ - ⟨-, -, hstack₁⟩
    refine .bind (emitSeq_total hctx body rfl htyped
      (hstack₁.trans (List.append_nil []).symm)) ?_
    rintro - es₂ - -
    refine .bind (slots_emits 0 hknown.1.results es₂) ?_
    rintro - es₃ - -
    exact .pure trivial
  obtain ⟨code, es, hrun, -⟩ := hemits hknown.2 (List.forall_mem_nil _)
  exact ⟨_, directFunction_of_body hknown.1 hbody hrun⟩

variable {bc : BlockContext} {b : Block} {kept : Nat → Prop}

/-- A typed block has a function once the blocks that it leads to have numbers. -/
theorem blockFunction_total
    (hctx : bc.toContext.Formed) (hframes : bc.frames.Formed)
    {i : Nat} (hi : bc.frames.machine.blocks[i]? = some b)
    (hb : b.Typed bc.program bc.analysis kept bc.frames.machine) (hids : Numbered bc b.term)
    (hlocals : AllKnown bc.func.locals) : ∃ fn, bc.blockFunction b = .ok fn := by
  have hentry : bc.frames.machine.entryTypes? b.index = some b.entry := by
    rw [hframes.index i b hi, Machine.entryTypes?, hi]
    rfl
  have hpl : (bc.frames.payload b.index).Formed bc.frames.layout bc.func b.entry :=
    hframes.payload_of_entry hentry
  obtain ⟨id, hid⟩ : ∃ id, bc.blockId b.index = .ok id :=
    ⟨_, eq_ok_of_isOk (hids.blocks b.index b.entry hentry)⟩
  let rest : Emitter (List Shader.Stmt) := do
    let payload ← entry bc.frames.payloads b.index
    let vars ← bc.frameVars b payload
    setStack b.entry
    let inner ← emitSeq bc.toContext bc.func [] b.body
    let last ← bc.emitTerminator b
    return readSp :: popFrame bc.layout payload vars ++ inner ++ last ++ [writeSp]
  have hemits : Emits bc.toContext bc.func rest { declared := [⟨spVar, .u32⟩] }
      fun _ _ => True := by
    refine .bind (payload_declares hframes hentry _).emits ?_
    rintro _ es₀ - ⟨⟨rfl, -⟩, -⟩
    refine .bind (frameVars_declares hpl es₀).emits ?_
    rintro vars es₁ - -
    refine .bind (setStack_emits hpl.operands_known es₁) ?_
    rintro - _ - rfl
    have hempty : ([] : List Label).map (·.types) = [] := rfl
    refine .bind (emitSeq_total hctx b.body hempty hb.body (List.nil_append _).symm) ?_
    rintro inner es₂ - -
    refine .bind (emitTerminator_declares hframes hb.known hb.term hids es₂).emits ?_
    rintro - es₃ - -
    exact .pure trivial
  obtain ⟨code, es, hrun, -⟩ := hemits hlocals (List.forall_mem_nil _)
  have hbody : (bc.emitBlockBody b).run {} = .ok (code, es) := hrun
  unfold BlockContext.blockFunction
  rw [hbody]
  change ∃ fn, (bc.blockId b.index >>= _) = Except.ok fn
  rw [hid]
  exact ⟨_, rfl⟩

end WasmShader.Emit
