import WasmShader.Program.OfModule
import WasmShader.Proofs.Typing

/-!
# Programs read from modules

What holds of every program that `Program.ofModule` builds, checked or not: instructions
have immediates of their kind, functions and imports are numbered by their places, the
locals of a function start with its parameters, and every type has a representation.
-/

namespace WasmShader

/-- The program is as one read from a module. -/
structure Program.Formed (p : Program) : Prop where
  importIndex : ∀ k (i : Import), p.imports[k]? = some i → i.index = k
  importKnown : ∀ i ∈ p.imports, i.type.Known
  funcIndex : ∀ k (f : Function), p.funcs[k]? = some f → f.index = p.imports.length + k
  funcKnown : ∀ f ∈ p.funcs, f.type.Known ∧ AllKnown f.locals
  funcLocals : ∀ f ∈ p.funcs, ∃ declared, f.locals = f.type.params ++ declared
  body : ∀ f ∈ p.funcs, ∀ b, f.body = .ok b → Body.Formed b
  calls : ∀ f ∈ p.funcs, ∀ b, f.body = .ok b → f.calls = Body.calls b
  indirectCalls : ∀ f ∈ p.funcs, ∀ b, f.body = .ok b →
    f.indirectCalls = (Body.instrs b).countP (·.operation = .callIndirect)
  memoryOps : ∀ f ∈ p.funcs, ∀ b, f.body = .ok b →
    f.memoryOps = (Body.instrs b).countP fun i =>
      i.operation = .memorySize || i.operation = .memoryGrow
  typeKnown : ∀ t ∈ p.types, t.sig.Known
  globalKnown : ∀ g ∈ p.globals, g.type.isKnown = true ∧ g.init.type = g.type

/-! ## Instructions -/

section Reading

variable {α β : Type}

/-- What the reader gives is as described. -/
def Reader.Gives (r : Reader α) (Q : α → Prop) : Prop := ∀ bs a rest, r bs = .ok (a, rest) → Q a

theorem Reader.Gives.pure {a : α} {Q : α → Prop} (h : Q a) : Gives (Pure.pure a) Q := by
  intro bs b rest heq
  cases heq
  exact h

theorem Reader.Gives.bind {r : Reader α} {k : α → Reader β} {Q : β → Prop}
    (h : ∀ a, Gives (k a) Q) : Gives (r >>= k) Q := by
  intro bs b rest heq
  obtain ⟨⟨a, rest'⟩, -, hk⟩ := Program.bind_eq_ok heq
  exact h a rest' b rest hk

theorem Reader.Gives.noting {r : Reader α} {note : String} {Q : α → Prop} (h : Gives r Q) :
    Gives (Reader.noting note r) Q := by
  intro bs a rest heq
  rw [Reader.noting] at heq
  cases hr : r bs with
  | error e => rw [hr] at heq; cases heq
  | ok x =>
      rw [hr] at heq
      cases heq
      exact h bs a rest hr

theorem Reader.Gives.throw {e : Failure} {Q : α → Prop} :
    Gives (MonadExcept.throw e : Reader α) Q := by
  intro bs a rest heq
  cases heq

theorem Reader.Gives.ite {c : Prop} [Decidable c] {r r' : Reader α} {Q : α → Prop}
    (h : Gives r Q) (h' : Gives r' Q) : Gives (if c then r else r') Q := by
  split
  · exact h
  · exact h'

theorem readImmediate_formed (opcode : UInt8) :
    Reader.Gives (Instr.readImmediate opcode)
      fun imm => (Instr.mk opcode imm).isFormed = true := by
  unfold Instr.readImmediate
  cases hop : Operation.ofOpcode opcode with
  | unknown => exact .throw
  | vector =>
      refine .bind fun sub => .ite (.bind fun _ => ?_) ?_ <;>
        exact .noting (.bind fun bytes => .pure (by simp only [Instr.isFormed, Instr.operation, hop]))
  | brTable =>
      refine .noting (.bind fun _ => .bind fun _ => .ite (.bind fun _ => ?_) ?_) <;>
        exact .bind fun _ => .bind fun _ =>
          .pure (by simp only [Instr.isFormed, Instr.operation, hop])
  | callIndirect | memoryAccess =>
      exact .noting (.bind fun _ => .bind fun _ =>
        .pure (by simp only [Instr.isFormed, Instr.operation, hop]))
  | block | loop | ifElse | br | brIf | call | localGet | localSet | localTee | globalGet
  | globalSet | memorySize | memoryGrow | i32Const | i64Const | f32Const | f64Const =>
      exact .noting (.bind fun _ => .pure (by simp only [Instr.isFormed, Instr.operation, hop]))
  | _ => exact .pure (by simp only [Instr.isFormed, Instr.operation, hop])

/-- What holds of every instruction by its opcode and immediate holds of all that are read. -/
theorem readAll_gives {Q : Instr → Prop}
    (hQ : ∀ opcode, Reader.Gives (Instr.readImmediate opcode) fun imm => Q ⟨opcode, imm⟩)
    {fuel : Nat} {bs : Bytes} {instrs : List Instr} (h : Instr.readAll fuel bs = .ok instrs) :
    ∀ i ∈ instrs, Q i := by
  have hread : Reader.Gives Instr.read Q := by
    intro bs i rest heq
    obtain ⟨⟨opcode, rest'⟩, -, heq⟩ := Program.bind_eq_ok heq
    obtain ⟨⟨imm, rest''⟩, himm, heq⟩ := Program.bind_eq_ok heq
    cases heq
    exact hQ opcode rest' imm _ himm
  induction fuel generalizing bs instrs with
  | zero =>
      cases bs with
      | nil => cases h; intro i hi; cases hi
      | cons b bs => cases h; intro i hi; cases hi
  | succ fuel ih =>
      cases bs with
      | nil => cases h; intro i hi; cases hi
      | cons b bs =>
          unfold Instr.readAll at h
          obtain ⟨⟨first, rest⟩, hfirst, h⟩ := Program.bind_eq_ok h
          obtain ⟨more, hmore, h⟩ := Program.bind_eq_ok h
          cases h
          intro i hi
          cases hi with
          | head => exact hread _ first rest hfirst
          | tail _ hi => exact ih hmore i hi

theorem readAll_formed {fuel : Nat} {bs : Bytes} {instrs : List Instr}
    (h : Instr.readAll fuel bs = .ok instrs) : ∀ i ∈ instrs, i.isFormed = true :=
  readAll_gives readImmediate_formed h

end Reading

/-! ## Types -/

theorem isKnown_of_ofByte {b : UInt8} {t : ValueType} (h : ValueType.ofByte? b = some t) :
    t.isKnown = true := by
  unfold ValueType.ofByte? at h
  split at h
  all_goals first | (cases h; rfl) | cases h

theorem allKnown_of_convertTypes {bs : Bytes} {ts : List ValueType}
    (h : convertTypes bs = .ok ts) : AllKnown ts := by
  induction bs generalizing ts with
  | nil => cases h; intro t ht; cases ht
  | cons b bs ih =>
      rw [convertTypes] at h
      split at h
      · cases h
      · next t hb =>
        obtain ⟨rest, hrest, h⟩ := Program.bind_eq_ok h
        cases h
        intro u hu
        cases hu with
        | head => exact isKnown_of_ofByte hb
        | tail _ hu => exact ih hrest u hu

theorem known_of_convertSignature {t : Binary.FuncType} {sig : Signature}
    (h : convertSignature t = .ok sig) : sig.Known := by
  obtain ⟨params, hparams, h⟩ := Program.bind_eq_ok h
  obtain ⟨results, hresults, h⟩ := Program.bind_eq_ok h
  cases h
  exact ⟨allKnown_of_convertTypes hparams, allKnown_of_convertTypes hresults⟩

theorem known_nil : Signature.Known ⟨[], []⟩ :=
  ⟨nofun, nofun⟩

theorem known_single {t : ValueType} (h : t.isKnown = true) : Signature.Known ⟨[], [t]⟩ := by
  refine ⟨nofun, fun u hu => ?_⟩
  rw [List.mem_singleton.mp hu]
  exact h

theorem known_of_blockSignature {types : List Binary.FuncType} {type : Int32} {sig : Signature}
    (h : Body.blockSignature types type = .ok sig) : sig.Known := by
  unfold Body.blockSignature at h
  dsimp only at h
  split at h
  · cases h; exact known_nil
  split at h
  · cases h; exact known_single rfl
  split at h
  · cases h; exact known_single rfl
  split at h
  · cases h; exact known_single rfl
  split at h
  · cases h; exact known_single rfl
  split at h
  · cases h; exact known_single rfl
  split at h
  · cases h
  split at h
  · exact known_of_convertSignature h
  · cases h

theorem known_of_signature {s : Body.Source} {i : Instr} {sig : Signature}
    (h : s.signature i = .ok sig) : sig.Known := by
  unfold Body.Source.signature at h
  split at h
  · exact known_of_blockSignature (Program.liftFailure_eq_ok h)
  · cases h

/-! ## Bodies -/

/-- What a sequence that starts with a plain instruction parses to. -/
def Body.behindInstr (i : Instr) (r : Body × Body.SeqEnd × List Instr) :
    Body × Body.SeqEnd × List Instr :=
  (Node.instr i :: (if i.operation.isTerminal then [] else r.1), r.2.1, r.2.2)

/-- A parsed sequence is formed, and what is left of the instructions was there before. -/
theorem parseSeq_formed {s : Body.Source} {fuel : Nat} {instrs rest : List Instr} {body : Body}
    {close : Body.SeqEnd} (hformed : ∀ i ∈ instrs, i.isFormed = true)
    (h : Body.parseSeq s fuel instrs = .ok (body, close, rest)) :
    Body.Formed body ∧ ∀ i ∈ rest, i.isFormed = true := by
  induction fuel generalizing instrs rest body close with
  | zero => rw [Body.parseSeq] at h; cases h
  | succ fuel ih =>
      cases instrs with
      | nil => unfold Body.parseSeq at h; cases h
      | cons i instrs =>
          have hi := hformed i List.mem_cons_self
          have hrest : ∀ i ∈ instrs, i.isFormed = true :=
            fun i hi => hformed i (List.mem_cons_of_mem _ hi)
          have hplain
              (h : (do return Body.behindInstr i (← Body.parseSeq s fuel instrs)
                : Except Abort _) = .ok (body, close, rest)) :
              Body.Formed body ∧ ∀ i ∈ rest, i.isFormed = true := by
            obtain ⟨⟨nodes, close', rest'⟩, hnodes, h⟩ := Program.bind_eq_ok h
            cases h
            obtain ⟨hbody, hleft⟩ := ih hrest hnodes
            refine ⟨?_, hleft⟩
            dsimp only [Body.behindInstr]
            rw [Body.Formed, Node.Formed, Node.isTerminal]
            refine ⟨hi, fun ht => by rw [if_pos ht], ?_⟩
            split
            · rw [Body.Formed]; trivial
            · exact hbody
          unfold Body.parseSeq at h
          cases hop : i.operation with
          | endMark => simp only [hop] at h; cases h; exact ⟨by rw [Body.Formed]; trivial, hrest⟩
          | elseMark => simp only [hop] at h; cases h; exact ⟨by rw [Body.Formed]; trivial, hrest⟩
          | nop => simp only [hop] at h; exact ih hrest h
          | block | loop =>
              simp only [hop] at h
              obtain ⟨sig, hsig, h⟩ := Program.bind_eq_ok h
              obtain ⟨⟨inner, close', rest'⟩, hinner, h⟩ := Program.bind_eq_ok h
              obtain ⟨hbody, hleft⟩ := ih hrest hinner
              cases close' with
              | atElse => cases h
              | atEnd =>
                  obtain ⟨⟨nodes, close'', rest''⟩, hnodes, h⟩ := Program.bind_eq_ok h
                  cases h
                  obtain ⟨hmore, hleft⟩ := ih hleft hnodes
                  refine ⟨?_, hleft⟩
                  rw [Body.Formed, Node.Formed]
                  exact ⟨⟨known_of_signature hsig, hbody⟩, fun h => (by cases h), hmore⟩
          | ifElse =>
              simp only [hop] at h
              obtain ⟨sig, hsig, h⟩ := Program.bind_eq_ok h
              obtain ⟨⟨inner, close', rest'⟩, hinner, h⟩ := Program.bind_eq_ok h
              obtain ⟨hbody, hleft⟩ := ih hrest hinner
              cases close' with
              | atEnd =>
                  obtain ⟨⟨nodes, close'', rest''⟩, hnodes, h⟩ := Program.bind_eq_ok h
                  cases h
                  obtain ⟨hmore, hleft⟩ := ih hleft hnodes
                  refine ⟨?_, hleft⟩
                  rw [Body.Formed, Node.Formed]
                  exact ⟨⟨known_of_signature hsig, hbody⟩, fun h => (by cases h), hmore⟩
              | atElse =>
                  obtain ⟨⟨other, close'', rest''⟩, hother, h⟩ := Program.bind_eq_ok h
                  obtain ⟨halternative, hleft⟩ := ih hleft hother
                  cases close'' with
                  | atElse => cases h
                  | atEnd =>
                      obtain ⟨⟨nodes, close₃, rest₃⟩, hnodes, h⟩ := Program.bind_eq_ok h
                      cases h
                      obtain ⟨hmore, hleft⟩ := ih hleft hnodes
                      refine ⟨?_, hleft⟩
                      rw [Body.Formed, Node.Formed]
                      exact ⟨⟨known_of_signature hsig, hbody, halternative⟩,
                        fun h => (by cases h), hmore⟩
          | _ =>
              refine hplain ?_
              rw [← h, hop]
              simp only [Body.behindInstr, hop]

theorem parse_formed {types : List Binary.FuncType} {instrs : List Instr} {body : Body}
    (hformed : ∀ i ∈ instrs, i.isFormed = true) (h : Body.parse types instrs = .ok body) :
    Body.Formed body := by
  obtain ⟨⟨nodes, close, rest⟩, hnodes, h⟩ := Program.bind_eq_ok h
  have hbody := (parseSeq_formed hformed hnodes).1
  dsimp only at h
  split at h
  · cases h
  · cases h; exact hbody
  · cases h

/-! ## Programs -/

namespace Program

theorem known_typeEntry (i : Nat) (t : Binary.FuncType) : (typeEntry i t).sig.Known := by
  unfold typeEntry
  split
  · next h => exact known_of_convertSignature h
  · exact known_nil

theorem mem_of_typeAt {types : List TypeEntry} {idx : UInt32} {t : TypeEntry}
    (h : typeAt types idx = .ok t) : t ∈ types := by
  unfold typeAt at h
  split at h
  · next heq => cases h; exact List.mem_of_getElem? heq
  · cases h

theorem importsOf_formed {types : List TypeEntry} (htypes : ∀ t ∈ types, t.sig.Known)
    {base : Nat} {is : List Binary.Import} {imports : List Import}
    (h : importsOf types base is = .ok imports) :
    (∀ k (i : Import), imports[k]? = some i → i.index = base + k)
      ∧ ∀ i ∈ imports, i.type.Known := by
  induction is generalizing base imports with
  | nil => cases h; exact ⟨nofun, nofun⟩
  | cons i rest ih =>
      rw [importsOf] at h
      split at h
      · next typeIdx _ =>
        obtain ⟨t, ht, h⟩ := bind_eq_ok h
        obtain ⟨more, hmore, h⟩ := bind_eq_ok h
        cases h
        obtain ⟨hindex, hknown⟩ := ih hmore
        constructor
        · intro k j hj
          cases k with
          | zero => cases hj; rfl
          | succ k => rw [hindex k j hj]; omega
        · intro j hj
          cases hj with
          | head => exact htypes t (mem_of_typeAt ht)
          | tail _ hj => exact hknown j hj
      · cases h
      · split at h
        · cases h
        · exact ih h
      · exact ih h
      · exact ih h

theorem type_constValue {init : Bytes} {type : ValueType} {v : Value}
    (h : constValue init type = .ok v) : v.type = type := by
  obtain ⟨instrs, -, h⟩ := bind_eq_ok h
  dsimp only at h
  split at h
  · split at h
    · cases h
    · split at h
      · cases h
      · split at h
        · cases h
        · next hne => cases h; exact Classical.not_not.mp hne
  · cases h

theorem globalsOf_formed {i : Nat} {gs : List Binary.Global} {globals : List Global}
    (h : globalsOf i gs = .ok globals) :
    ∀ g ∈ globals, g.type.isKnown = true ∧ g.init.type = g.type := by
  induction gs generalizing i globals with
  | nil => cases h; nofun
  | cons g rest ih =>
      rw [globalsOf] at h
      split at h
      · cases h
      · next t ht =>
        split at h
        · cases h
        · next init hinit =>
          obtain ⟨more, hmore, h⟩ := bind_eq_ok h
          cases h
          intro g' hg'
          cases hg' with
          | head => exact ⟨isKnown_of_ofByte ht, type_constValue hinit⟩
          | tail _ hg' => exact ih hmore g' hg'

theorem allKnown_expandLocals (runs : List Binary.LocalRun) : AllKnown (expandLocals runs).1 := by
  induction runs with
  | nil => nofun
  | cons run rest ih =>
      rw [expandLocals]
      split
      · nofun
      · next t ht =>
        intro u hu
        rcases List.mem_append.mp hu with hu | hu
        · rw [List.eq_of_mem_replicate hu]; exact isKnown_of_ofByte ht
        · exact ih u hu

/-- What `Formed` says of one function. -/
structure FormedFunction (f : Function) : Prop where
  known : f.type.Known ∧ AllKnown f.locals
  locals : ∃ declared, f.locals = f.type.params ++ declared
  body : ∀ b, f.body = .ok b → Body.Formed b
  calls : ∀ b, f.body = .ok b → f.calls = Body.calls b
  indirectCalls : ∀ b, f.body = .ok b →
    f.indirectCalls = (Body.instrs b).countP (·.operation = .callIndirect)
  memoryOps : ∀ b, f.body = .ok b → f.memoryOps = (Body.instrs b).countP fun i =>
    i.operation = .memorySize || i.operation = .memoryGrow

theorem calls_of_callSites {body : Body} {sites : List Nat} (h : body.callSites = .ok sites) :
    sites = Body.calls body := by
  unfold Body.callSites at h
  split at h
  · cases h
  · cases h; rfl

theorem functionOf_formed {m : Binary.Module} {types : List TypeEntry}
    (htypes : ∀ t ∈ types, t.sig.Known ∧ (t.err.isSome → t.sig = ⟨[], []⟩)) {base pos : Nat}
    {typeIdx : UInt32} {code : Binary.FuncBody} {f : Function}
    (h : functionOf m types base pos typeIdx code = .ok f) :
    f.index = base + pos ∧ FormedFunction f ∧ ∀ body, f.body = .ok body →
      ∃ instrs, Instr.decodeAll code.code = .ok instrs ∧ Body.parse m.types instrs = .ok body := by
  obtain ⟨t, ht, h⟩ := bind_eq_ok h
  have hmem := mem_of_typeAt (liftFailure_eq_ok ht)
  obtain ⟨hknown, hempty⟩ := htypes t hmem
  split at h
  · next herr =>
    cases h
    refine ⟨rfl, ⟨⟨hknown, nofun⟩, ⟨[], ?_⟩, nofun, nofun, nofun, nofun⟩, nofun⟩
    rw [hempty herr]; rfl
  · generalize hlocals : expandLocals code.locals = locals at h
    obtain ⟨declared, bad⟩ := locals
    have hdeclared : AllKnown declared := by
      have := allKnown_expandLocals code.locals
      rw [hlocals] at this
      exact this
    have hall : AllKnown (t.sig.params ++ declared) := hknown.params.append hdeclared
    dsimp only at h
    split at h
    · cases h
      exact ⟨rfl, ⟨⟨hknown, hall⟩, ⟨declared, rfl⟩, nofun, nofun, nofun, nofun⟩, nofun⟩
    · obtain ⟨instrs, hinstrs, h⟩ := bind_eq_ok h
      obtain ⟨body, hparse, h⟩ : ∃ body, Body.parse m.types instrs = .ok body ∧ _ := by
        split at h
        · next body heq => exact ⟨body, heq, h⟩
        · cases h
        · cases h
      obtain ⟨_, hread, h⟩ := bind_eq_ok h
      cases hread
      obtain ⟨sites, hsites, h⟩ := bind_eq_ok h
      obtain rfl := calls_of_callSites hsites
      cases h
      have hdecode : Instr.decodeAll code.code = .ok instrs := by
        cases hd : Instr.decodeAll code.code with
        | error e => rw [hd] at hinstrs; cases hinstrs
        | ok is => rw [hd] at hinstrs; cases hinstrs; rfl
      have hformed := parse_formed (readAll_formed hdecode) hparse
      refine ⟨rfl, ⟨⟨hknown, hall⟩, ⟨declared, rfl⟩, ?_, ?_, ?_, ?_⟩, ?_⟩
      · intro b hb; cases hb; exact hformed
      · intro b hb; cases hb; rfl
      · intro b hb; cases hb; rfl
      · intro b hb; cases hb; rfl
      · intro b hb; cases hb; exact ⟨instrs, hdecode, hparse⟩

theorem functionsOf_formed {m : Binary.Module} {types : List TypeEntry}
    (htypes : ∀ t ∈ types, t.sig.Known ∧ (t.err.isSome → t.sig = ⟨[], []⟩)) {base pos : Nat}
    {codes : List (UInt32 × Binary.FuncBody)} {funcs : List Function}
    (h : functionsOf m types base pos codes = .ok funcs) :
    (∀ k (f : Function), funcs[k]? = some f → f.index = base + (pos + k))
      ∧ ∀ f ∈ funcs, FormedFunction f := by
  induction codes generalizing pos funcs with
  | nil => cases h; exact ⟨nofun, nofun⟩
  | cons c rest ih =>
      obtain ⟨typeIdx, code⟩ := c
      rw [functionsOf] at h
      obtain ⟨f, hf, h⟩ := bind_eq_ok h
      obtain ⟨more, hmore, h⟩ := bind_eq_ok h
      cases h
      obtain ⟨hindex, hformed, -⟩ := functionOf_formed htypes hf
      obtain ⟨hindices, hrest⟩ := ih hmore
      constructor
      · intro k g hg
        cases k with
        | zero => cases hg; exact hindex
        | succ k => rw [hindices k g hg]; omega
      · intro g hg
        cases hg with
        | head => exact hformed
        | tail _ hg => exact hrest g hg

theorem entries_formed (types : List Binary.FuncType) : ∀ t ∈ types.mapIdx typeEntry,
    t.sig.Known ∧ (t.err.isSome → t.sig = ⟨[], []⟩) := by
  intro t ht
  obtain ⟨i, hi, rfl⟩ := List.mem_mapIdx.mp ht
  refine ⟨known_typeEntry _ _, ?_⟩
  unfold typeEntry
  split
  · nofun
  · intro _; rfl

/-- Programs read from modules are formed. -/
theorem formed_of_ofModule {m : Binary.Module} {p : Program} (h : ofModule m = .ok p) :
    p.Formed := by
  rw [ofModule] at h
  split at h
  · cases h
  · obtain ⟨imports, himports, h⟩ := bind_eq_ok h
    obtain ⟨globals, hglobals, h⟩ := bind_eq_ok h
    obtain ⟨funcs, hfuncs, h⟩ := bind_eq_ok h
    cases h
    have htypes := entries_formed m.types
    obtain ⟨hindex, hknown⟩ :=
      importsOf_formed (fun t ht => (htypes t ht).1) (liftFailure_eq_ok himports)
    obtain ⟨hindices, hformed⟩ := functionsOf_formed htypes hfuncs
    exact {
      importIndex := fun k i hi => by rw [hindex k i hi, Nat.zero_add]
      importKnown := hknown
      funcIndex := fun k f hf => by rw [hindices k f hf, Nat.zero_add]
      funcKnown := fun f hf => (hformed f hf).known
      funcLocals := fun f hf => (hformed f hf).locals
      body := fun f hf => (hformed f hf).body
      calls := fun f hf => (hformed f hf).calls
      indirectCalls := fun f hf => (hformed f hf).indirectCalls
      memoryOps := fun f hf => (hformed f hf).memoryOps
      typeKnown := fun t ht => (htypes t ht).1
      globalKnown := globalsOf_formed (liftFailure_eq_ok hglobals) }

end Program

/-! ## Known types -/

section Known

variable {p : Program} {f : Function}

theorem known_of_signature? (hp : p.Formed) {target : Nat} {sig : Signature}
    (h : p.signature? target = some sig) : sig.Known := by
  unfold Program.signature? at h
  split at h
  · obtain ⟨i, hi, rfl⟩ := Option.map_eq_some_iff.mp h
    exact hp.importKnown i (List.mem_of_getElem? hi)
  · obtain ⟨g, hg, rfl⟩ := Option.map_eq_some_iff.mp h
    unfold Program.func? at hg
    split at hg
    · cases hg
    · exact (hp.funcKnown g (List.mem_of_getElem? hg)).1

/-- Behind typed code are operands of known types. -/
theorem typedInstr_known (hp : p.Formed) (hlocals : AllKnown f.locals) {labels : Program.Labels}
    {i : Instr} {stack out : TypeStack} (h : p.TypedInstr f labels i stack (some out))
    (hstack : AllKnown stack) : AllKnown out := by
  cases h with
  | @numeric op rest hop =>
      exact hstack.of_append.1.append (known_of_mem_table (mem_table_of_operation hop))
  | nop => exact hstack
  | constant hv => exact hstack.append (.singleton hv.known)
  | drop => exact hstack.of_append.1
  | select =>
      exact hstack.of_append.1.append (.singleton (hstack.of_append.2 _ (List.mem_cons_self ..)))
  | localGet _ _ ht => exact hstack.append (.singleton (hlocals _ (List.mem_of_getElem? ht)))
  | localSet => exact hstack.of_append.1
  | localTee => exact hstack
  | globalGet _ _ hg =>
      exact hstack.append (.singleton (hp.globalKnown _ (List.mem_of_getElem? hg)).1)
  | globalSet => exact hstack.of_append.1
  | call _ _ hsig => exact hstack.of_append.1.append (known_of_signature? hp hsig).results
  | callIndirect _ _ ht _ =>
      exact hstack.of_append.1.append (hp.typeKnown _ (List.mem_of_getElem? ht)).results
  | memorySize => exact hstack.append (.singleton rfl)
  | memoryGrow => exact hstack.of_append.1.append (.singleton rfl)
  | brIf => exact hstack.of_append.1

theorem typedNode_known (hp : p.Formed) (hlocals : AllKnown f.locals) {labels : Program.Labels}
    {n : Node} {stack out : TypeStack} (h : p.TypedNode f labels n stack (some out))
    (hstack : AllKnown stack) : AllKnown out := by
  cases h with
  | instr hi => exact typedInstr_known hp hlocals hi hstack
  | block hsig _ => exact hstack.of_append.1.append hsig.results
  | ifThen hsig _ _ => exact hstack.of_append.1.of_append.1.append hsig.results
  | ifElse hsig _ _ => exact hstack.of_append.1.of_append.1.append hsig.results

end Known

end WasmShader
