import WasmShader.Proofs.BlockNumbers
import WasmShader.Proofs.CanonicalForm

/-!
# The address space of block numbers

Half of the numbers are for blocks, the other half for host functions. That the first half
suffices is checked when the blocks are numbered. That the second half suffices is a matter of
size: every host function is asked by an instruction of its own, which takes at least two bytes of
code, and the code of a module that can be encoded is in one section, whose size is a number of 32
bits.
-/

namespace WasmShader

variable {α β : Type}

/-! ## Bytes of instructions -/

namespace Reader

/-- A value is read from at least `n` bytes. -/
def Takes (n : Nat) (r : Reader α) : Prop :=
  ∀ bs a rest, r bs = .ok (a, rest) → n + rest.length ≤ bs.length

variable {n : Nat} {r : Reader α} {k : α → Reader β}

theorem Takes.zero (h : Takes n r) : Takes 0 r := by
  intro bs a rest hread
  have htakes := h bs a rest hread
  omega

theorem Takes.bind (hr : Takes n r) (hk : ∀ a, Takes 0 (k a)) : Takes n (r >>= k) := by
  intro bs b rest hread
  obtain ⟨a, bs', ha, hb⟩ := of_bind_eq_ok hread
  have hfirst := hr bs a bs' ha
  have hthen := hk a bs' b rest hb
  omega

theorem Takes.noting {note : String} (h : Takes n r) : Takes n (Reader.noting note r) :=
  fun bs a rest hread => h bs a rest (noting_eq_ok.mp hread)

theorem Takes.pure (a : α) : Takes 0 (Pure.pure a) := by
  intro bs b rest hread
  cases hread
  omega

theorem Takes.throw (e : Failure) : Takes n (MonadExcept.throw e : Reader α) := nofun

theorem Framed.takes (h : Framed r) : Takes 0 r := by
  intro bs a rest hread
  obtain ⟨used, rfl, -⟩ := h bs a rest hread
  rw [List.length_append]
  omega

theorem takes_remaining : Takes 0 remaining := by
  intro bs a rest hread
  cases hread
  omega

theorem takes_byte : Takes 1 byte := by
  intro bs a rest hread
  have hlen := (Binary.codec_byte.gives hread).2
  rwa [List.length_singleton] at hlen

theorem takes_readU32 : Takes 1 Leb128.readU32 := by
  intro bs a rest hread
  have hlen := (Binary.codec_u32.gives hread).2
  have hpos := Leb128.length_writeNat_pos a.toNat
  rw [Leb128.writeU32] at hlen
  omega

end Reader

namespace Instr

open Reader

/-- The instruction may ask the host. -/
def mayAsk (i : Instr) : Bool :=
  i.operation ∈ [.call, .callIndirect, .memorySize, .memoryGrow]

theorem takes_readLabels (n : Nat) : Takes 0 (readLabels n) := by
  induction n with
  | zero => exact .pure []
  | succ n ih => exact takes_readU32.zero.bind fun _ => ih.bind fun _ => .pure _

theorem takes_readBranchTable : Takes 0 readBranchTable := by
  refine takes_readU32.zero.bind fun count => takes_remaining.bind fun left => ?_
  split
  · exact (Takes.throw _).bind fun _ => (takes_readLabels _).bind fun _ =>
      takes_readU32.zero.bind fun _ => .pure _
  · exact (takes_readLabels _).bind fun _ => takes_readU32.zero.bind fun _ => .pure _

theorem takes_readFixed (n : Nat) : Takes 0 (readFixed n) :=
  (framed_fixed n).takes.bind fun _ => .pure _

theorem takes_readImmediate (opcode : UInt8) (imm : Immediate) :
    Takes (if mayAsk ⟨opcode, imm⟩ then 1 else 0) (readImmediate opcode) := by
  unfold readImmediate mayAsk operation
  cases Operation.ofOpcode opcode with
  | call | memorySize | memoryGrow => exact (takes_readU32.bind fun _ => .pure _).noting
  | callIndirect =>
      exact (takes_readU32.bind fun _ => takes_readU32.zero.bind fun _ => .pure _).noting
  | memoryAccess =>
      exact (takes_readU32.zero.bind fun _ => takes_readU32.zero.bind fun _ => .pure _).noting
  | br | brIf | localGet | localSet | localTee | globalGet | globalSet =>
      exact (takes_readU32.zero.bind fun _ => .pure _).noting
  | block | loop | ifElse | i32Const =>
      exact (Leb128.framed_readS32.takes.bind fun _ => .pure _).noting
  | i64Const => exact (Leb128.framed_readS64.takes.bind fun _ => .pure _).noting
  | f32Const | f64Const => exact ((takes_readFixed _).bind fun _ => .pure _).noting
  | brTable => exact takes_readBranchTable.noting
  | vector =>
      refine takes_readU32.zero.noting.bind fun sub => ?_
      split
      · exact (Takes.throw _).bind fun _ => ((framed_fixed 16).takes.bind fun _ => .pure _).noting
      · exact ((framed_fixed 16).takes.bind fun _ => .pure _).noting
  | unknown => exact .throw _
  | unreachable | nop | elseMark | endMark | ret | drop | select | numeric => exact .pure _

theorem length_of_read {bs rest : Bytes} {i : Instr} (h : Instr.read bs = .ok (i, rest)) :
    (if i.mayAsk then 2 else 1) + rest.length ≤ bs.length := by
  obtain ⟨opcode, bs', hopcode, h⟩ := of_bind_eq_ok h
  obtain ⟨imm, bs'', himm, h⟩ := of_bind_eq_ok h
  cases h
  have hbyte := takes_byte bs opcode bs' hopcode
  have htakes := takes_readImmediate opcode imm bs' imm rest himm
  by_cases hask : mayAsk ⟨opcode, imm⟩ = true
  · rw [if_pos hask] at htakes ⊢
    omega
  · rw [if_neg hask] at htakes ⊢
    omega

theorem two_mul_countP_mayAsk_le {fuel : Nat} {bs : Bytes} {instrs : List Instr}
    (h : readAll fuel bs = .ok instrs) : 2 * instrs.countP mayAsk ≤ bs.length := by
  induction fuel generalizing bs instrs with
  | zero => cases bs <;> (cases h; exact Nat.zero_le _)
  | succ fuel ih =>
      cases bs with
      | nil =>
          cases h
          exact Nat.zero_le _
      | cons b bs =>
          obtain ⟨i, rest, is, hread, hrest, rfl⟩ := Binary.of_readAll_eq_ok h
          have hfirst := length_of_read hread
          have hothers := ih hrest
          rw [List.countP_cons]
          by_cases hask : i.mayAsk = true
          · rw [if_pos hask] at hfirst ⊢
            omega
          · rw [if_neg hask] at hfirst ⊢
            omega

/-- Only some instructions ask the host. -/
theorem mayAsk_of_hostKey {p : Program} {i : Instr} {key : HostKey}
    (h : i.hostKey? p = some key) : i.mayAsk = true := by
  unfold hostKey? at h
  unfold mayAsk
  split at h
  · next hop _ => rw [hop]; decide
  · next hop _ => rw [hop]; decide
  · next hop => rw [hop]; decide
  · next hop => rw [hop]; decide
  · cases h

end Instr

/-! ## Instructions of bodies -/

/-- A body has its instructions from the code, in the order in which they are there. -/
theorem parseSeq_sublist {s : Body.Source} {fuel : Nat} {instrs rest : List Instr} {body : Body}
    {close : Body.SeqEnd} (h : Body.parseSeq s fuel instrs = .ok (body, close, rest)) :
    (Body.instrs body ++ rest).Sublist instrs := by
  induction fuel generalizing instrs rest body close with
  | zero => rw [Body.parseSeq] at h; cases h
  | succ fuel ih =>
      cases instrs with
      | nil => unfold Body.parseSeq at h; cases h
      | cons i instrs =>
          have hplain
              (h : (do return Body.behindInstr i (← Body.parseSeq s fuel instrs)
                : Except Abort _) = .ok (body, close, rest)) :
              (Body.instrs body ++ rest).Sublist (i :: instrs) := by
            obtain ⟨⟨nodes, close', rest'⟩, hnodes, h⟩ := Program.bind_eq_ok h
            cases h
            have hmore := ih hnodes
            dsimp only [Body.behindInstr]
            rw [Body.instrs, Node.instrs]
            refine .cons_cons i ?_
            split
            · exact (List.sublist_append_right _ _).trans hmore
            · exact hmore
          unfold Body.parseSeq at h
          cases hop : i.operation with
          | endMark =>
              simp only [hop] at h
              cases h
              exact List.sublist_cons_self _ _
          | elseMark =>
              simp only [hop] at h
              cases h
              exact List.sublist_cons_self _ _
          | nop =>
              simp only [hop] at h
              exact (ih h).cons _
          | block | loop =>
              simp only [hop] at h
              obtain ⟨sig, hsig, h⟩ := Program.bind_eq_ok h
              obtain ⟨⟨inner, close', rest'⟩, hinner, h⟩ := Program.bind_eq_ok h
              cases close' with
              | atElse => cases h
              | atEnd =>
                  obtain ⟨⟨nodes, close'', rest''⟩, hnodes, h⟩ := Program.bind_eq_ok h
                  cases h
                  rw [Body.instrs, Node.instrs, List.append_assoc]
                  exact (((ih hnodes).append_left _).trans (ih hinner)).cons _
          | ifElse =>
              simp only [hop] at h
              obtain ⟨sig, hsig, h⟩ := Program.bind_eq_ok h
              obtain ⟨⟨inner, close', rest'⟩, hinner, h⟩ := Program.bind_eq_ok h
              cases close' with
              | atEnd =>
                  obtain ⟨⟨nodes, close'', rest''⟩, hnodes, h⟩ := Program.bind_eq_ok h
                  cases h
                  rw [Body.instrs, Node.instrs, List.append_assoc]
                  exact (((ih hnodes).append_left _).trans (ih hinner)).cons _
              | atElse =>
                  obtain ⟨⟨other, close'', rest''⟩, hother, h⟩ := Program.bind_eq_ok h
                  cases close'' with
                  | atElse => cases h
                  | atEnd =>
                      obtain ⟨⟨nodes, close₃, rest₃⟩, hnodes, h⟩ := Program.bind_eq_ok h
                      cases h
                      rw [Body.instrs, Node.instrs, List.append_assoc, List.append_assoc]
                      have hbehind := ((ih hnodes).append_left _).trans (ih hother)
                      exact ((hbehind.append_left _).trans (ih hinner)).cons _
          | _ =>
              refine hplain ?_
              rw [← h]
              simp only [Body.behindInstr, hop]

theorem parse_sublist {types : List Binary.FuncType} {instrs : List Instr} {body : Body}
    (h : Body.parse types instrs = .ok body) : (Body.instrs body).Sublist instrs := by
  obtain ⟨⟨nodes, close, rest⟩, hnodes, h⟩ := Program.bind_eq_ok h
  have hall := (List.sublist_append_left _ _).trans (parseSeq_sublist hnodes)
  dsimp only at h
  split at h
  · cases h
  · cases h; exact hall
  · cases h

/-! ## Questions of a program -/

/-- What the functions ask the host, one key for each instruction that asks. -/
def questions (p : Program) (funcs : List Function) : List HostKey :=
  funcs.flatMap fun f => match f.body with
    | .ok body => (Body.instrs body).filterMap (Instr.hostKey? p)
    | .error _ => []

theorem mem_questions {p : Program} {funcs : List Function} {f : Function} (hf : f ∈ funcs)
    {key : HostKey} (h : f.Asks p key) : key ∈ questions p funcs := by
  obtain ⟨body, hbody, i, hi, hkey⟩ := h
  refine List.mem_flatMap.mpr ⟨f, hf, ?_⟩
  rw [hbody]
  exact List.mem_filterMap.mpr ⟨i, hi, hkey⟩

theorem length_filterMap_hostKey_le (p : Program) (instrs : List Instr) :
    (instrs.filterMap (Instr.hostKey? p)).length ≤ instrs.countP Instr.mayAsk := by
  rw [List.length_filterMap_eq_countP]
  refine List.countP_mono_left fun i _ hasks => ?_
  obtain ⟨key, hkey⟩ := Option.isSome_iff_exists.mp hasks
  exact Instr.mayAsk_of_hostKey hkey

namespace Program

/-- Each question takes two bytes of code. -/
theorem length_questions_functionsOf_le (p : Program) {m : Binary.Module} {types : List TypeEntry}
    (htypes : ∀ t ∈ types, t.sig.Known ∧ (t.err.isSome → t.sig = ⟨[], []⟩)) {base pos : Nat}
    {codes : List (UInt32 × Binary.FuncBody)} {funcs : List Function}
    (h : functionsOf m types base pos codes = .ok funcs) :
    2 * (questions p funcs).length ≤ (codes.map (·.2.code.length)).sum := by
  induction codes generalizing pos funcs with
  | nil =>
      cases h
      exact Nat.le_refl 0
  | cons c rest ih =>
      obtain ⟨typeIdx, code⟩ := c
      rw [functionsOf] at h
      obtain ⟨f, hf, h⟩ := bind_eq_ok h
      obtain ⟨more, hmore, h⟩ := bind_eq_ok h
      cases h
      obtain ⟨-, -, hdecoded⟩ := functionOf_formed htypes hf
      have hothers := ih hmore
      rw [questions, List.flatMap_cons, List.length_append, List.map_cons, List.sum_cons]
      rw [questions] at hothers
      cases hbody : f.body with
      | error e => 
        dsimp only 
        rw [List.length_nil]
        omega
      | ok body =>
          obtain ⟨instrs, hdecode, hparse⟩ := hdecoded body hbody
          have hasked := length_filterMap_hostKey_le p (Body.instrs body)
          have hfewer := (parse_sublist hparse).countP_le (p := Instr.mayAsk)
          have hbytes := Instr.two_mul_countP_mayAsk_le hdecode
          dsimp only
          omega

theorem length_questions_le {p : Program} {m : Binary.Module} (h : ofModule m = .ok p) :
    2 * (questions p p.funcs).length ≤ (m.code.map (·.code.length)).sum := by
  rw [ofModule] at h
  split at h
  · cases h
  · next hbodies =>
    obtain ⟨imports, -, h⟩ := bind_eq_ok h
    obtain ⟨globals, -, h⟩ := bind_eq_ok h
    obtain ⟨funcs, hfuncs, h⟩ := bind_eq_ok h
    cases h
    have hbytes := length_questions_functionsOf_le
      { imports, funcs, globals, types := m.types.mapIdx typeEntry } (entries_formed m.types) hfuncs
    have hcodes : (m.funcs.zip m.code).map (·.2) = m.code :=
      List.map_snd_zip (Nat.le_of_eq (not_not.mp hbodies).symm)
    rwa [← hcodes, List.map_map]

end Program

namespace Binary

theorem sum_length_code_le (code : List FuncBody) :
    (code.map (·.code.length)).sum ≤ (writeVector writeFuncBody code).length := by
  rw [writeVector, List.length_append, List.length_flatMap]
  refine (List.sum_le_sum fun b _ => ?_).trans (Nat.le_add_left _ _)
  rw [writeFuncBody_eq, writeName, FuncBody.data, List.length_append, List.length_append]
  omega

end Binary

/-- The numbers of host functions are enough for a module that can be encoded. -/
theorem HostTable.Sound.length_le {m : Binary.Module} {p : Program} (hm : m.Encodable)
    (hread : Program.ofModule m = .ok p) {t : HostTable} (ht : t.Sound p) :
    t.funcs.length ≤ BlockId.maxBlocks := by
  have hkeys : (t.funcs.map (·.key)).length ≤ (questions p p.funcs).length := by
    refine (ht.keys.subperm fun key hkey => ?_).length_le
    obtain ⟨h, hh, rfl⟩ := List.mem_map.mp hkey
    obtain ⟨f, hf, hasks⟩ := ht.asked h hh
    exact mem_questions hf hasks
  rw [List.length_map] at hkeys
  have hbytes := Program.length_questions_le hread
  have hsection := (Binary.sum_length_code_le m.code).trans_lt hm.code.size
  rw [BlockId.maxBlocks]
  omega

/-! ## Compiled modules -/

namespace Compile

section Module

variable {config : Config} {p : Program} {m : Binary.Module}

/-- The blocks of a compiled module are numbered as its address space says, and host functions of a
module that can be encoded have numbers of their own. With too few numbers for the blocks nothing
is compiled. -/
theorem compile_numbers_blocks (hread : Program.ofModule m = .ok p) :
    (∀ out, compile config p = .ok out → ∃ frames,
      buildFrames config.withDefaults p out.analysis { layout := config.layout }
          (out.analysis.machineSet.filter fun fn => !(out.skipped.map (·.1)).contains fn)
        = .ok (frames, out.hosts)
      ∧ AddressSpace config p frames out
      ∧ (m.Encodable → out.hosts.funcs.length ≤ BlockId.maxBlocks))
    ∧ ∀ unsupported g frames hosts,
      unsupportedFunctions config.withDefaults p = .ok unsupported →
      CallGraph.build p = .ok g →
      buildFrames config.withDefaults p g.analyze { layout := config.layout }
          (g.analyze.machineSet.filter fun fn =>
            !((skippedFunctions g unsupported).map (·.1)).contains fn) = .ok (frames, hosts) →
      Allocator.clamp config.maxBlocks < (machinePlaces frames).length
        + (exitPlaces config g.analyze (p.funcs.filter fun f =>
          !((skippedFunctions g unsupported).map (·.1)).contains f.index)).length →
      ∃ e, compile config p = .error (.failed e) ∧ e.isCapacity = true := by
  have hp := Program.formed_of_ofModule hread
  refine ⟨fun out h => ?_, fun unsupported g frames hosts hu hg hframes hmany =>
    compile_capacity hp hu hg hframes hmany⟩
  obtain ⟨unsupported, g, plan, direct, machines, entries, -, horigin, -, hvalid⟩ :=
    compile_eq_ok hp h
  refine ⟨plan.frames, ?_, horigin.addressSpace hp hvalid, fun hm =>
    horigin.planned.table.1.length_le hm hread⟩
  rw [horigin.analysis_eq]
  exact (plan_eq_ok horigin.planning).1

/-- One number fewer than the mixture needs. -/
def scarce : Config := { lenient with maxBlocks := 6 }

def mixtureFrames : List Frames × HostTable :=
  (buildFrames scarce.withDefaults mixtureProgram mixtureGraph.analyze { layout := scarce.layout }
    (mixtureGraph.analyze.machineSet.filter fun fn =>
      !((skippedFunctions mixtureGraph mixtureUnsupported).map (·.1)).contains fn)).toOption.getD
    ([], { layout := scarce.layout })

/-- The theorem at a program with recursion and a question to the host, with enough numbers and
with one too few. -/
theorem compile_numbers_blocks_mixture : Program.ofModule mixture = .ok mixtureProgram
    ∧ mixture.Encodable
    ∧ (∃ out, compile lenient mixtureProgram = .ok out ∧ ∃ frames,
      AddressSpace lenient mixtureProgram frames out
        ∧ out.hosts.funcs.length ≤ BlockId.maxBlocks)
    ∧ ∃ e, compile scarce mixtureProgram = .error (.failed e) ∧ e.isCapacity = true := by
  have hparse : Binary.Module.parse mixture.encode = .ok mixture := by decide +kernel
  have hencodable := Binary.encodable_of_parse hparse
  obtain ⟨out, hout, -⟩ := compile_mixture
  obtain ⟨frames, -, hspace, hhosts⟩ := (compile_numbers_blocks read_mixture).1 out hout
  have hframes : buildFrames scarce.withDefaults mixtureProgram mixtureGraph.analyze
      { layout := scarce.layout } (mixtureGraph.analyze.machineSet.filter fun fn =>
        !((skippedFunctions mixtureGraph mixtureUnsupported).map (·.1)).contains fn)
      = .ok mixtureFrames := eq_ok_getD (by decide +kernel) _
  rw [← Prod.mk.eta (p := mixtureFrames)] at hframes
  have hunsupported : unsupportedFunctions scarce.withDefaults mixtureProgram
      = .ok mixtureUnsupported := by
    have hcheck : checkFunction scarce.withDefaults = checkFunction lenient.withDefaults := by
      funext p f
      have hskip : scarce.withDefaults.skipUnsupported = lenient.withDefaults.skipUnsupported := rfl
      rw [checkFunction, checkFunction, hskip]
    rw [← unsupported_mixture, unsupportedFunctions, unsupportedFunctions, hcheck]
  refine ⟨read_mixture, hencodable, ⟨out, hout, frames, hspace, hhosts hencodable⟩, ?_⟩
  exact (@compile_numbers_blocks scarce _ _ read_mixture).2 mixtureUnsupported mixtureGraph
    mixtureFrames.1 mixtureFrames.2 hunsupported build_mixture hframes (by decide +kernel)

end Module

end Compile

end WasmShader
