import WasmShader.Proofs.SplitTyping

/-!
# Code in blocks

The walk takes a tree apart and puts its pieces into blocks. `NodeCode` and `SeqCode` say where
the pieces of a tree are, constructor by constructor: given what is left of a block where the
work of a node begins, they tell what is left of a block where control is behind it, or that
control never gets behind it. They speak of finished blocks only, through the function that
finds them, and of no order in which these were made.

What is left of a block at some point of the walk is read off the state there and a later one,
in which the block is finished (`State.rest?`).
-/

namespace WasmShader

/-- What is left of a block. -/
structure BlockRest where
  code : List Node
  term : Terminator

/-- A block of the machine, all of it. -/
def Machine.block? (m : Machine) (k : Nat) : Option BlockRest :=
  m.blocks[k]?.map fun b => ⟨b.body, b.term⟩

/-- What an instruction asks for, and what that takes and gives. -/
inductive Instr.Requests (p : Program) (i : Instr) : Structured.Request → Signature → Prop
  | call {target : UInt32} {sig : Signature} : i.operation = .call → i.imm = .call target →
      p.signature? target.toNat = some sig →
      Requests p i (Structured.callRequest p target.toNat) sig
  | callIndirect {typeIdx table : UInt32} {t : TypeEntry} : i.operation = .callIndirect →
      i.imm = .callIndirect typeIdx table → p.types[typeIdx.toNat]? = some t →
      Requests p i (.host (.callIndirect typeIdx.toNat)) ⟨t.sig.params ++ [.i32], t.sig.results⟩
  | memorySize : i.operation = .memorySize →
      Requests p i (.host (.memory .memorySize)) ⟨[], [.i32]⟩
  | memoryGrow : i.operation = .memoryGrow →
      Requests p i (.host (.memory .memoryGrow)) ⟨[.i32], [.i32]⟩

/-- What a transfer of control asks for. -/
def Callee.request : Callee → Structured.Request
  | .func fn => .call fn
  | .host h => .host h.key

/-- The terminator that transfers control. -/
def Callee.yield (callee : Callee) (sig : Signature) (next : Nat) : Terminator :=
  match callee with
  | .func fn => .call fn sig.params sig.results next
  | .host h => .host h sig.params sig.results next

namespace Split

/-! ## Where the pieces of a tree are -/

section Code

variable (p : Program) (f : Function) (blocks : Nat → Option BlockRest)

/-- The transfer that a conditional branch to the label makes. Out of the function it leads to
the block that returns. -/
inductive EdgeTo (l : Label) : Edge → Prop
  | func {k : Nat} : l.target = .func → l.types = f.type.results →
      blocks k = some ⟨[], .ret f.type.results⟩ → EdgeTo l ⟨k, 0, l.types.length⟩
  | block {index height : Nat} : l.target = .block index height →
      EdgeTo l ⟨index, height, l.types.length⟩

/-- The transfer that a branch to a depth makes, with operands of the types. -/
def BranchTo (labels : List Label) (types : List ValueType) (depth : UInt32) (e : Edge) : Prop :=
  ∃ l, labels[depth.toNat]? = some l ∧ l.types = types ∧ EdgeTo f blocks l e

mutual

/-- The node is done from the first rest on, above operands of the outer types; control gets
behind it with the second, if at all. -/
inductive NodeCode : List Label → TypeStack → Node → TypeStack → TypeStack → BlockRest →
    Option BlockRest → Prop
  | stays {labels : List Label} {outer types out : TypeStack} {n : Node} {code : List Node}
      {t : Terminator} : p.TypedNode f [] n types (some out) →
      (∀ i ∈ n.instrs, i.operation ≠ .ret) →
      NodeCode labels outer n types out ⟨n :: code, t⟩ (some ⟨code, t⟩)
  | unreachable {labels : List Label} {outer types out : TypeStack} {i : Instr} :
      i.operation = .unreachable →
      NodeCode labels outer (.instr i) types out ⟨[], .trap .unreachable⟩ none
  | ret {labels : List Label} {outer rest out : TypeStack} {i : Instr} : i.operation = .ret →
      NodeCode labels outer (.instr i) (rest ++ f.type.results) out ⟨[], .ret f.type.results⟩ none
  | leave {labels : List Label} {outer rest out : TypeStack} {i : Instr} {depth : UInt32}
      {l : Label} : i.operation = .br → i.imm = .branch depth → labels[depth.toNat]? = some l →
      l.target = .func →
      NodeCode labels outer (.instr i) (rest ++ l.types) out ⟨[], .ret l.types⟩ none
  | br {labels : List Label} {outer rest out types : TypeStack} {i : Instr} {depth : UInt32}
      {e : Edge} : i.operation = .br → i.imm = .branch depth →
      BranchTo f blocks labels types depth e →
      NodeCode labels outer (.instr i) (rest ++ types) out ⟨[], .goto e⟩ none
  | brIf {labels : List Label} {outer rest types : TypeStack} {i : Instr} {depth : UInt32}
      {e : Edge} {next : Nat} {behind : BlockRest} : i.operation = .brIf →
      i.imm = .branch depth → BranchTo f blocks labels types depth e →
      blocks next = some behind →
      NodeCode labels outer (.instr i) (rest ++ types ++ [.i32]) (rest ++ types)
        ⟨[], .branch e ⟨next, (outer ++ (rest ++ types)).length, 0⟩⟩ (some behind)
  | brTable {labels : List Label} {outer rest out types : TypeStack} {i : Instr}
      {depths : List UInt32} {fallback : UInt32} {es : List Edge} {e : Edge} :
      i.operation = .brTable → i.imm = .branchTable depths fallback →
      List.Forall₂ (BranchTo f blocks labels types) depths es →
      BranchTo f blocks labels types fallback e →
      NodeCode labels outer (.instr i) (rest ++ types ++ [.i32]) out ⟨[], .switch es e⟩ none
  | request {labels : List Label} {outer rest : TypeStack} {i : Instr} {callee : Callee}
      {sig : Signature} {next : Nat} {behind : BlockRest} : i.Requests p callee.request sig →
      callee.Takes p sig → blocks next = some behind →
      NodeCode labels outer (.instr i) (rest ++ sig.params) (rest ++ sig.results)
        ⟨[], callee.yield sig next⟩ (some behind)
  | loop {labels : List Label} {outer mid : TypeStack} {sig : Signature} {body : List Node}
      {header : Nat} {start : BlockRest} {o : Option BlockRest} : blocks header = some start →
      SeqCode (⟨.block header (outer ++ mid).length, sig.params⟩ :: labels) (outer ++ mid) body
        sig.params sig.results start o →
      NodeCode labels outer (.block true sig body) (mid ++ sig.params) (mid ++ sig.results)
        ⟨[], .goto ⟨header, (outer ++ mid ++ sig.params).length, 0⟩⟩ o
  | block {labels : List Label} {outer mid : TypeStack} {sig : Signature} {body : List Node}
      {join : Nat} {start behind : BlockRest} {o : Option BlockRest} :
      blocks join = some behind →
      SeqCode (⟨.block join (outer ++ mid).length, sig.results⟩ :: labels) (outer ++ mid) body
        sig.params sig.results start o →
      (∀ t, o = some t → t = ⟨[], .goto ⟨join, (outer ++ mid).length, sig.results.length⟩⟩) →
      NodeCode labels outer (.block false sig body) (mid ++ sig.params) (mid ++ sig.results) start
        (some behind)
  | ifThen {labels : List Label} {outer mid : TypeStack} {sig : Signature} {body : List Node}
      {first join : Nat} {start behind : BlockRest} {o : Option BlockRest} :
      sig.params = sig.results → blocks first = some start → blocks join = some behind →
      SeqCode (⟨.block join (outer ++ mid).length, sig.results⟩ :: labels) (outer ++ mid) body
        sig.params sig.results start o →
      (∀ t, o = some t → t = ⟨[], .goto ⟨join, (outer ++ mid).length, sig.results.length⟩⟩) →
      NodeCode labels outer (.ifThen sig body) (mid ++ sig.params ++ [.i32]) (mid ++ sig.results)
        ⟨[], .branch ⟨first, (outer ++ mid ++ sig.params).length, 0⟩
          ⟨join, (outer ++ mid ++ sig.params).length, 0⟩⟩ (some behind)
  | ifElse {labels : List Label} {outer mid : TypeStack} {sig : Signature}
      {body alternative : List Node} {first second join : Nat}
      {start start' behind : BlockRest} {o o' : Option BlockRest} : blocks first = some start →
      blocks second = some start' → blocks join = some behind →
      SeqCode (⟨.block join (outer ++ mid).length, sig.results⟩ :: labels) (outer ++ mid) body
        sig.params sig.results start o →
      (∀ t, o = some t → t = ⟨[], .goto ⟨join, (outer ++ mid).length, sig.results.length⟩⟩) →
      SeqCode (⟨.block join (outer ++ mid).length, sig.results⟩ :: labels) (outer ++ mid)
        alternative sig.params sig.results start' o' →
      (∀ t, o' = some t → t = ⟨[], .goto ⟨join, (outer ++ mid).length, sig.results.length⟩⟩) →
      NodeCode labels outer (.ifElse sig body alternative) (mid ++ sig.params ++ [.i32])
        (mid ++ sig.results)
        ⟨[], .branch ⟨first, (outer ++ mid ++ sig.params).length, 0⟩
          ⟨second, (outer ++ mid ++ sig.params).length, 0⟩⟩ (some behind)

/-- The sequence is done from the first rest on. What stands behind a node that control does
not pass is of no matter. -/
inductive SeqCode : List Label → TypeStack → List Node → TypeStack → TypeStack → BlockRest →
    Option BlockRest → Prop
  | nil {labels : List Label} {outer types : TypeStack} {t : BlockRest} :
      SeqCode labels outer [] types types t (some t)
  | cons {labels : List Label} {outer types mid results : TypeStack} {n : Node} {ns : List Node}
      {t t' : BlockRest} {o : Option BlockRest} :
      NodeCode labels outer n types mid t (some t') →
      SeqCode labels outer ns mid results t' o →
      SeqCode labels outer (n :: ns) types results t o
  | dead {labels : List Label} {outer types mid results : TypeStack} {n : Node} {ns : List Node}
      {t : BlockRest} {o : Option BlockRest} : NodeCode labels outer n types mid t none →
      SeqCode labels outer (n :: ns) types results t o

end

/-- The body of the function is done from block zero on, and behind it is the return. -/
def BodyCode (body : List Node) : Prop :=
  ∃ start o, blocks 0 = some start
    ∧ SeqCode p f blocks [⟨.func, f.type.results⟩] [] body [] f.type.results start o
    ∧ ∀ t, o = some t → t = ⟨[], .ret f.type.results⟩

end Code

/-! ## What is left of a block -/

/-- A block, all of it. -/
def State.block? (s : State) (i : Nat) : Option BlockRest :=
  s.drafts[i]?.map fun d => ⟨d.body, d.term.getD (.trap .unreachable)⟩

/-- The second state has the blocks of the first, as far as these have got. -/
def Later (s z : State) : Prop :=
  ∀ (i : Nat) d, s.drafts[i]? = some d → ∃ d', z.drafts[i]? = some d' ∧ d.body <+: d'.body
    ∧ (d.term.isSome = true → d' = d)

/-- What is put into the current block between a state and a later one. -/
def State.rest? (s z : State) : Option BlockRest :=
  s.current.bind fun i => s.drafts[i]?.bind fun d =>
    (z.block? i).map fun t => ⟨t.code.drop d.body.length, t.term⟩

theorem block?_machine (s : State) (f : Function) (i : Nat) :
    (s.machine f).block? i = s.block? i := by
  rw [Machine.block?, State.machine, List.getElem?_mapIdx, Array.getElem?_toList, Option.map_map]
  rfl

section Rest

variable {ctx : Context} {kept : Nat → Prop} {s s' z : State} {i j : Nat}

theorem Later.trans (h : Later s s') (h' : Later s' z) : Later s z := by
  intro i d hd
  obtain ⟨d', hd', hbody, hsame⟩ := h i d hd
  obtain ⟨d'', hd'', hbody', hsame'⟩ := h' i d' hd'
  refine ⟨d'', hd'', hbody.trans hbody', fun hterm => ?_⟩
  obtain rfl := hsame hterm
  exact hsame' hterm

theorem Extends.later (h : Extends s s') : Later s s' := by
  intro i d hd
  obtain ⟨d', hd', -, hbody, hsame⟩ := h.drafts i d hd
  exact ⟨d', hd', hbody, fun hterm => hsame (.inr hterm)⟩

theorem Later.of_drafts (h : Later s' z) (hdrafts : s'.drafts = s.drafts) : Later s z := by
  unfold Later at h ⊢
  rwa [hdrafts] at h

theorem rest?_of_none (h : s.current = none) : s.rest? z = none := by
  rw [State.rest?, h]; rfl

theorem rest?_eq {d : Draft} (hcurrent : s.current = some i) (hd : s.drafts[i]? = some d) :
    s.rest? z = (z.block? i).map fun t => ⟨t.code.drop d.body.length, t.term⟩ := by
  rw [State.rest?, hcurrent]
  change s.drafts[i]?.bind _ = _
  rw [hd]
  rfl

/-- A block that is finished stays as it is. -/
theorem block?_of_term {d : Draft} {t : Terminator} (hlater : Later s z)
    (hd : s.drafts[i]? = some d) (ht : d.term = some t) : z.block? i = some ⟨d.body, t⟩ := by
  obtain ⟨d', hd', -, hsame⟩ := hlater i d hd
  obtain rfl := hsame (by rw [ht]; rfl)
  rw [State.block?, hd', Option.map_some, ht]
  rfl

theorem exists_block? {d : Draft} (hlater : Later s z) (hd : s.drafts[i]? = some d) :
    ∃ t, z.block? i = some t := by
  obtain ⟨d', hd', -⟩ := hlater i d hd
  rw [State.block?, hd']
  exact ⟨_, rfl⟩

/-- In a block that nothing has been put into, all of it is left. -/
theorem rest?_of_empty {entry : List ValueType} (hcurrent : s.current = some j)
    (hd : s.drafts[j]? = some { entry }) : s.rest? z = z.block? j := by
  rw [rest?_eq hcurrent hd]
  cases z.block? j with
  | none => rfl
  | some t => rfl

/-- In front of its terminator nothing else is left of a block. -/
theorem Open.rest?_closed (h : Open ctx kept s i) {term : Terminator}
    (hlater : Later (s.closed i term) z) : s.rest? z = some ⟨[], term⟩ := by
  obtain ⟨d, hd, -⟩ := h.draft
  have hclosed : (s.closed i term).drafts[i]?
      = some { d with stack := s.stack, term := some term } := by
    rw [State.closed, getElem?_edit, if_pos rfl, hd]
    rfl
  rw [rest?_eq h.current hd, block?_of_term hlater hclosed rfl, Option.map_some, List.drop_length]

/-- Setting blocks aside puts nothing into the current one. -/
theorem Open.rest?_congr (h : Open ctx kept s i) (hcurrent : s'.current = s.current)
    (hdrafts : ∀ (k : Nat) d, s.drafts[k]? = some d → s'.drafts[k]? = some d) :
    s'.rest? z = s.rest? z := by
  obtain ⟨d, hd, -⟩ := h.draft
  rw [rest?_eq h.current hd, rest?_eq (hcurrent.trans h.current) (hdrafts i d hd)]

/-- A node at the end of the current block is what comes first of what is left of it. -/
theorem Open.rest?_appended (h : Open ctx kept s i) {n : Node} {out : TypeStack}
    (hlater : Later (s.appended i n out) z) {t : BlockRest} (ht : s.rest? z = some t) :
    ∃ code, t = ⟨n :: code, t.term⟩ ∧ (s.appended i n out).rest? z = some ⟨code, t.term⟩ := by
  obtain ⟨d, hd, -⟩ := h.draft
  have happended : (s.appended i n out).drafts[i]? = some { d with body := d.body ++ [n] } := by
    change (s.edit i _).drafts[i]? = _
    rw [getElem?_edit, if_pos rfl, hd]
    rfl
  obtain ⟨d', hd', ⟨code, hcode⟩, -⟩ := hlater i _ happended
  have hblock : z.block? i = some ⟨d.body ++ [n] ++ code, d'.term.getD (.trap .unreachable)⟩ := by
    rw [State.block?, hd', Option.map_some, ← hcode]
  rw [rest?_eq h.current hd, hblock, Option.map_some, List.append_assoc, List.drop_left] at ht
  cases ht
  refine ⟨code, rfl, ?_⟩
  rw [rest?_eq (s := s.appended i n out) h.current happended, hblock, Option.map_some,
    List.drop_left]

/-- What the walk has put into blocks between two states, from what is left at the first of
them to what is left at the second. Whatever is put there later does not matter. -/
def Codes (s s' : State)
    (C : (Nat → Option BlockRest) → BlockRest → Option BlockRest → Prop) : Prop :=
  ∀ z, Later s' z → ∀ t, s.rest? z = some t → C z.block? t (s'.rest? z)

end Rest

end Split

end WasmShader
