import WasmShader.Proofs.Typing
import WasmShader.Proofs.Variables

/-!
# Runs of the emitter

Emission can crash, but not where a body is typed: the operands that an instruction asks for
are on the stack, the locals it names exist, and all of these have types that variables can
carry. `Emits` says that a step of emission goes through, that it only adds variables of the
function, that operands of known types stay so, and what it gives. The rules here are those of
the small steps; they say which variables a step names and what it does to the stack.
-/

namespace WasmShader.Emit

open Shader

/-! ## Variables that are declared -/

/-- The variable of an operand or of a local, with the carrier of its type. -/
inductive WorkVar (ctx : Context) (f : WasmShader.Function) : Variable → Prop
  | slot (k : Nat) (t : ValueType) : WorkVar ctx f ⟨slotName k t, Ty.carrier ctx.layout t⟩
  | localVar {i : Nat} {t : ValueType} : f.locals[i]? = some t →
      WorkVar ctx f ⟨localName i, Ty.carrier ctx.layout t⟩

theorem WorkVar.isWork {ctx : Context} {f : WasmShader.Function} {v : Variable}
    (h : WorkVar ctx f v) : IsWork v.name := by
  cases h with
  | slot k t => exact isWork_slotName k t
  | localVar _ => exact isWork_localName _

/-- The names declared so far. -/
def State.names (es : State) : List String := es.declared.map (·.name)

/-- Emission that goes on only adds variables of the function, and labels. -/
structure State.Grows (ctx : Context) (f : WasmShader.Function) (es es' : State) : Prop where
  declared : ∃ new, es'.declared = es.declared ++ new ∧ ∀ v ∈ new, WorkVar ctx f v
  labels : es.labels ≤ es'.labels

variable {ctx : Context} {f : WasmShader.Function} {α β : Type}

theorem State.Grows.refl (es : State) : es.Grows ctx f es :=
  ⟨⟨[], (List.append_nil _).symm, nofun⟩, Nat.le_refl _⟩

/-- A change of the stack alone. -/
theorem State.Grows.setStack (es : State) (stack : TypeStack) :
    es.Grows ctx f { es with stack } :=
  ⟨⟨[], (List.append_nil _).symm, nofun⟩, Nat.le_refl _⟩

theorem State.Grows.trans {es es' es'' : State} (h : es.Grows ctx f es')
    (h' : es'.Grows ctx f es'') : es.Grows ctx f es'' := by
  obtain ⟨new, hnew, hwork⟩ := h.declared
  obtain ⟨new', hnew', hwork'⟩ := h'.declared
  refine ⟨⟨new ++ new', by rw [hnew', hnew, List.append_assoc], fun v hv => ?_⟩,
    Nat.le_trans h.labels h'.labels⟩
  rcases List.mem_append.mp hv with hv | hv
  · exact hwork v hv
  · exact hwork' v hv

theorem State.Grows.names {es es' : State} (h : es.Grows ctx f es') {name : String}
    (hname : name ∈ es.names) : name ∈ es'.names := by
  obtain ⟨new, hnew, -⟩ := h.declared
  unfold State.names at hname ⊢
  rw [hnew, List.map_append]
  exact List.mem_append_left _ hname

/-! ## Steps that succeed -/

/-- Where locals and operands have known types, the step succeeds, only adds variables of `f`,
leaves operands of known types, and its end is as described. -/
def Emits (ctx : Context) (f : WasmShader.Function) (x : Emitter α) (es : State)
    (Q : α → State → Prop) : Prop :=
  AllKnown f.locals → AllKnown es.stack →
    ∃ a es', x es = .ok (a, es') ∧ es.Grows ctx f es' ∧ AllKnown es'.stack ∧ Q a es'

namespace Emits

variable {x : Emitter α} {k : α → Emitter β} {es : State} {Q : α → State → Prop}
  {R : β → State → Prop}

theorem pure {a : α} (h : Q a es) : Emits ctx f (Pure.pure a) es Q :=
  fun _ hknown => ⟨a, es, rfl, .refl es, hknown, h⟩

/-- A step that leaves the state as it is. -/
theorem unchanged {a : α} (hx : x es = .ok (a, es)) (h : Q a es) : Emits ctx f x es Q :=
  fun _ hknown => ⟨a, es, hx, .refl es, hknown, h⟩

theorem bind (hx : Emits ctx f x es Q)
    (hk : ∀ a es', es.Grows ctx f es' → Q a es' → Emits ctx f (k a) es' R) :
    Emits ctx f (x >>= k) es R := by
  intro hlocals hknown
  obtain ⟨a, es', hx, hgrows, hknown', hQ⟩ := hx hlocals hknown
  obtain ⟨b, es'', hb, hgrows', hknown'', hR⟩ := hk a es' hgrows hQ hlocals hknown'
  refine ⟨b, es'', ?_, hgrows.trans hgrows', hknown'', hR⟩
  change (x es >>= fun r => k r.1 r.2) = _
  rw [hx]
  exact hb

theorem mono {Q' : α → State → Prop} (h : Emits ctx f x es Q)
    (himp : ∀ a es', es.Grows ctx f es' → Q a es' → Q' a es') : Emits ctx f x es Q' := by
  intro hlocals hknown
  obtain ⟨a, es', hx, hgrows, hknown', hQ⟩ := h hlocals hknown
  exact ⟨a, es', hx, hgrows, hknown', himp a es' hgrows hQ⟩

/-- The operands in front of a step have known types. -/
theorem of_known (h : AllKnown f.locals → AllKnown es.stack → Emits ctx f x es Q) :
    Emits ctx f x es Q := fun hlocals hknown => h hlocals hknown hlocals hknown

/-- Looking at the state. -/
theorem bind_get {k : State → Emitter β} (h : Emits ctx f (k es) es R) :
    Emits ctx f (get >>= k) es R :=
  bind (Q := fun a es' => a = es ∧ es' = es) (unchanged rfl ⟨rfl, rfl⟩)
    (by rintro _ _ - ⟨rfl, rfl⟩; exact h)

end Emits

/-! ## Operands and locals -/

/-- The names of the operands from a place on. -/
def slotNames : (base : Nat) → List ValueType → List String
  | _, [] => []
  | base, t :: ts => slotName base t :: slotNames (base + 1) ts

theorem slotNames_append (base : Nat) (ts us : List ValueType) :
    slotNames base (ts ++ us) = slotNames base ts ++ slotNames (base + ts.length) us := by
  induction ts generalizing base with
  | nil => rfl
  | cons t ts ih =>
      rw [List.cons_append, slotNames, slotNames, ih, List.cons_append, List.length_cons,
        Nat.add_right_comm, Nat.add_assoc]

theorem length_slotNames (base : Nat) (ts : List ValueType) :
    (slotNames base ts).length = ts.length := by
  induction ts generalizing base with
  | nil => rfl
  | cons t ts ih => rw [slotNames, List.length_cons, List.length_cons, ih]

theorem mem_slotNames {base : Nat} {ts : List ValueType} {name : String}
    (h : name ∈ slotNames base ts) :
    ∃ k t, name = slotName k t ∧ base ≤ k ∧ k < base + ts.length := by
  induction ts generalizing base with
  | nil => cases h
  | cons t ts ih =>
      rw [slotNames, List.mem_cons] at h
      rw [List.length_cons]
      rcases h with rfl | h
      · exact ⟨base, t, rfl, Nat.le_refl _, by omega⟩
      · obtain ⟨k, t', rfl, hle, hlt⟩ := ih h
        exact ⟨k, t', rfl, by omega, by omega⟩

/-- Where locals have known types, the step succeeds whatever the types of the operands, only adds
variables of `f`, leaves the operands as they are, and its end is as described. -/
def Declares (ctx : Context) (f : WasmShader.Function) (x : Emitter α) (es : State)
    (Q : α → State → Prop) : Prop :=
  AllKnown f.locals →
    ∃ a es', x es = .ok (a, es') ∧ es.Grows ctx f es' ∧ es'.stack = es.stack ∧ Q a es'

namespace Declares

variable {x : Emitter α} {k : α → Emitter β} {es : State} {Q : α → State → Prop}
  {R : β → State → Prop}

theorem emits (h : Declares ctx f x es Q) :
    Emits ctx f x es fun a es' => Q a es' ∧ es'.stack = es.stack := by
  intro hlocals hknown
  obtain ⟨a, es', hx, hgrows, hstack, hQ⟩ := h hlocals
  exact ⟨a, es', hx, hgrows, hstack ▸ hknown, hQ, hstack⟩

theorem unchanged {a : α} (hx : x es = .ok (a, es)) (h : Q a es) : Declares ctx f x es Q :=
  fun _ => ⟨a, es, hx, .refl es, rfl, h⟩

theorem pure {a : α} (h : Q a es) : Declares ctx f (Pure.pure a) es Q := unchanged rfl h

theorem bind (hx : Declares ctx f x es Q)
    (hk : ∀ a es', es.Grows ctx f es' → Q a es' → Declares ctx f (k a) es' R) :
    Declares ctx f (x >>= k) es R := by
  intro hlocals
  obtain ⟨a, es', hx, hgrows, hstack, hQ⟩ := hx hlocals
  obtain ⟨b, es'', hb, hgrows', hstack', hR⟩ := hk a es' hgrows hQ hlocals
  refine ⟨b, es'', ?_, hgrows.trans hgrows', hstack'.trans hstack, hR⟩
  change (x es >>= fun r => k r.1 r.2) = _
  rw [hx]
  exact hb

theorem mono {Q' : α → State → Prop} (h : Declares ctx f x es Q)
    (himp : ∀ a es', es.Grows ctx f es' → Q a es' → Q' a es') : Declares ctx f x es Q' := by
  intro hlocals
  obtain ⟨a, es', hx, hgrows, hstack, hQ⟩ := h hlocals
  exact ⟨a, es', hx, hgrows, hstack, himp a es' hgrows hQ⟩

end Declares

theorem declare_declares {name : String} {t : Ty} (h : WorkVar ctx f ⟨name, t⟩) (es : State) :
    Declares ctx f (Emitter.declare name t) es fun n es' => n = name ∧ name ∈ es'.names := by
  by_cases hany : es.declared.any (·.name == name) = true
  · refine .unchanged (a := name) ?_ ⟨rfl, ?_⟩
    · change Except.ok (name, if es.declared.any (·.name == name) = true then es else _) = _
      rw [if_pos hany]
    · obtain ⟨v, hv, heq⟩ := List.any_eq_true.mp hany
      exact List.mem_map.mpr ⟨v, hv, beq_iff_eq.mp heq⟩
  · refine fun _ =>
      ⟨name, { es with declared := es.declared ++ [⟨name, t⟩] }, ?_, ?_, rfl, rfl, ?_⟩
    · change Except.ok (name, if es.declared.any (·.name == name) = true then es else _) = _
      rw [if_neg hany]
    · refine ⟨⟨[⟨name, t⟩], rfl, fun v hv => ?_⟩, Nat.le_refl _⟩
      rw [List.mem_singleton] at hv
      exact hv ▸ h
    · exact List.mem_map.mpr ⟨⟨name, t⟩, List.mem_append_right _ (List.mem_singleton.mpr rfl), rfl⟩

/-- What succeeds apart from emission. -/
theorem lift_declares {x : Except Abort α} {a : α} (h : x = .ok a) (es : State) :
    Declares ctx f (liftM x : Emitter α) es fun b es' => a = b ∧ es = es' := by
  refine .unchanged ?_ ⟨rfl, rfl⟩
  change (x >>= fun a => Pure.pure (a, es)) = _
  rw [h]
  rfl

/-- A place of a list that is there. -/
theorem entry_declares {xs : List α} {i : Nat} {a : α} (h : xs[i]? = some a) (es : State) :
    Declares ctx f (entry xs i : Emitter α) es fun b es' => a = b ∧ es = es' :=
  lift_declares (by rw [entry, h]) es

theorem entry_emits {xs : List α} {i : Nat} {a : α} (h : xs[i]? = some a) (es : State) :
    Emits ctx f (entry xs i : Emitter α) es fun b es' => a = b ∧ es = es' :=
  (entry_declares h es).emits.mono fun _ _ _ h => h.1

/-- A known type has a carrier. -/
theorem carrierOf_declares {t : ValueType} (ht : t.isKnown = true) (es : State) :
    Declares ctx f (Ty.carrierOf ctx.layout t : Emitter Ty) es fun c es' =>
      Ty.carrier ctx.layout t = c ∧ es = es' :=
  lift_declares (Ty.carrierOf_eq ht) es

theorem carrierOf_emits {t : ValueType} (ht : t.isKnown = true) (es : State) :
    Emits ctx f (Ty.carrierOf ctx.layout t : Emitter Ty) es fun c es' =>
      Ty.carrier ctx.layout t = c ∧ es = es' :=
  (carrierOf_declares ht es).emits.mono fun _ _ _ h => h.1

theorem slot_declares {t : ValueType} (ht : t.isKnown = true) (k : Nat) (es : State) :
    Declares ctx f (Emitter.slot ctx k t) es fun n es' =>
      n = slotName k t ∧ slotName k t ∈ es'.names := by
  refine .bind (carrierOf_declares ht es) ?_
  rintro _ _ - ⟨rfl, rfl⟩
  exact declare_declares (.slot k t) es

theorem slot_emits {t : ValueType} (ht : t.isKnown = true) (k : Nat) (es : State) :
    Emits ctx f (Emitter.slot ctx k t) es fun n es' =>
      n = slotName k t ∧ slotName k t ∈ es'.names ∧ es'.stack = es.stack :=
  (slot_declares ht k es).emits.mono fun _ _ _ h => ⟨h.1.1, h.1.2, h.2⟩

theorem localVar_declares {i : Nat} {t : ValueType} (ht : f.locals[i]? = some t) (es : State) :
    Declares ctx f (Emitter.localVar ctx f i) es fun n es' =>
      n = localName i ∧ localName i ∈ es'.names := by
  refine .bind (entry_declares ht es) ?_
  rintro _ _ - ⟨rfl, rfl⟩
  refine fun hlocals => ?_
  refine Declares.bind (carrierOf_declares (hlocals t (List.mem_of_getElem? ht)) es) ?_ hlocals
  rintro _ _ - ⟨rfl, rfl⟩
  exact declare_declares (.localVar ht) es

theorem localVar_emits {i : Nat} {t : ValueType} (ht : f.locals[i]? = some t) (es : State) :
    Emits ctx f (Emitter.localVar ctx f i) es fun n es' =>
      n = localName i ∧ localName i ∈ es'.names ∧ es'.stack = es.stack :=
  (localVar_declares ht es).emits.mono fun _ _ _ h => ⟨h.1.1, h.1.2, h.2⟩

theorem slots_declares (base : Nat) {ts : List ValueType} (hts : AllKnown ts) (es : State) :
    Declares ctx f (Emitter.slots ctx base ts) es fun vars _ =>
      vars = (slotNames base ts).map .var := by
  induction ts generalizing base es with
  | nil => exact .pure rfl
  | cons t ts ih =>
      obtain ⟨ht, hts⟩ := List.forall_mem_cons.mp hts
      rw [Emitter.slots]
      refine .bind (slot_declares ht base es) ?_
      rintro _ es₁ - ⟨rfl, -⟩
      refine .bind (ih (base + 1) hts es₁) ?_
      rintro _ es₂ - rfl
      exact .pure rfl

theorem slots_emits (base : Nat) {ts : List ValueType} (hts : AllKnown ts) (es : State) :
    Emits ctx f (Emitter.slots ctx base ts) es fun vars es' =>
      vars = (slotNames base ts).map .var ∧ es'.stack = es.stack :=
  (slots_declares base hts es).emits

/-! ## The stack -/

variable {es : State} {rest : TypeStack} {ts : List ValueType}

theorem stack_top_append (rest : TypeStack) {n : Nat} (hn : ts.length = n) :
    (rest ++ ts : TypeStack).top n = ts := by
  rw [TypeStack.top, List.length_append, hn, Nat.add_sub_cancel]
  exact List.drop_left

theorem stack_below_append (rest : TypeStack) {n : Nat} (hn : ts.length = n) :
    (rest ++ ts : TypeStack).below n = rest := by
  rw [TypeStack.below, List.length_append, hn, Nat.add_sub_cancel]
  exact List.take_left

theorem top_emits {n : Nat} (hn : ts.length = n) (hstack : es.stack = rest ++ ts) :
    Emits ctx f (Emitter.top ctx n) es fun vars es' =>
      vars = (slotNames rest.length ts).map .var ∧ es'.stack = es.stack := by
  refine .bind_get (.of_known fun _ hknown => ?_)
  have hlen : es.stack.length - n = rest.length := by
    rw [hstack, List.length_append, hn, Nat.add_sub_cancel]
  rw [if_neg (by rw [hstack, List.length_append]; omega), hlen, hstack,
    stack_top_append rest hn, ← hstack]
  rw [hstack] at hknown
  exact slots_emits rest.length hknown.of_append.2 es

theorem pop_emits {n : Nat} (hn : ts.length = n) (hstack : es.stack = rest ++ ts) :
    Emits ctx f (Emitter.pop ctx n) es fun vars es' =>
      vars = (slotNames rest.length ts).map .var ∧ es'.stack = rest := by
  refine .bind (top_emits hn hstack) ?_
  rintro _ es₁ - ⟨rfl, hstack₁⟩
  have hbelow : es₁.stack.below n = rest := by
    rw [hstack₁, hstack, stack_below_append rest hn]
  refine fun _ hknown =>
    ⟨_, { es₁ with stack := es₁.stack.below n }, rfl, .setStack es₁ _, ?_, rfl, hbelow⟩
  rw [hstack₁, hstack] at hknown
  exact hbelow ▸ hknown.of_append.1

theorem pop1_emits {t : ValueType} (hstack : es.stack = rest ++ [t]) :
    Emits ctx f (Emitter.pop1 ctx) es fun e es' =>
      e = .var (slotName rest.length t) ∧ es'.stack = rest := by
  refine .bind (pop_emits (n := 1) rfl hstack) ?_
  rintro _ es₁ - ⟨rfl, hstack₁⟩
  exact .pure ⟨rfl, hstack₁⟩

theorem push_emits {t : ValueType} (ht : t.isKnown = true) (es : State) :
    Emits ctx f (Emitter.push ctx t) es fun n es' =>
      n = slotName es.stack.length t ∧ n ∈ es'.names ∧ es'.stack = es.stack ++ [t] := by
  refine .bind_get ?_
  refine .bind (Q := fun _ es' => es' = { es with stack := es.stack ++ [t] })
    (fun _ hknown => ⟨_, _, rfl, .setStack es _, hknown.append (.singleton ht), rfl⟩) ?_
  rintro - _ - rfl
  refine (slot_emits ht es.stack.length _).mono ?_
  rintro _ es₁ - ⟨rfl, hname, hstack₁⟩
  exact ⟨rfl, hname, hstack₁⟩

theorem pushAll_emits {ts : List ValueType} (hts : AllKnown ts) (es : State) :
    Emits ctx f (pushAll ctx ts) es fun ns es' =>
      ns = slotNames es.stack.length ts ∧ (∀ n ∈ ns, n ∈ es'.names)
        ∧ es'.stack = es.stack ++ ts := by
  induction ts generalizing es with
  | nil => exact .pure ⟨rfl, nofun, (List.append_nil _).symm⟩
  | cons t ts ih =>
      obtain ⟨ht, hts⟩ := List.forall_mem_cons.mp hts
      rw [pushAll]
      refine .bind (push_emits ht es) ?_
      rintro _ es₁ - ⟨rfl, hname₁, hstack₁⟩
      refine .bind (ih hts es₁) ?_
      rintro _ es₂ hgrows ⟨rfl, hnames₂, hstack₂⟩
      refine .pure ⟨?_, ?_, ?_⟩
      · rw [slotNames, hstack₁, List.length_append, List.length_singleton]
      · intro n hn
        rcases List.mem_cons.mp hn with rfl | hn
        · exact hgrows.names hname₁
        · exact hnames₂ n hn
      · rw [hstack₂, hstack₁, List.append_assoc]; rfl

/-- The name of a label. -/
def labelName (n : Nat) : String := "L" ++ toString n

theorem labelName_inj {m n : Nat} (h : labelName m = labelName n) : m = n := by
  have h' := congrArg String.toList h
  rw [labelName, labelName, String.toList_append, String.toList_append] at h'
  exact toString_inj (List.append_cancel_left h')

theorem newLabel_emits (es : State) :
    Emits ctx f Emitter.newLabel es fun n es' =>
      n = labelName (es.labels + 1) ∧ es'.labels = es.labels + 1 ∧ es'.stack = es.stack := by
  refine .bind_get fun _ hknown => ?_
  exact ⟨_, { es with labels := es.labels + 1 }, rfl,
    ⟨⟨[], (List.append_nil _).symm, nofun⟩, Nat.le_succ _⟩, hknown, rfl, rfl, rfl⟩

theorem outerStack_emits {n : Nat} (hn : ts.length = n) (hstack : es.stack = rest ++ ts) :
    Emits ctx f (outerStack n) es fun outer es' => rest = outer ∧ es = es' := by
  refine .bind_get ?_
  rw [if_neg (by rw [hstack, List.length_append]; omega), hstack, stack_below_append rest hn]
  exact .pure ⟨rfl, rfl⟩

theorem setStack_emits {stack : TypeStack} (hstack : AllKnown stack) (es : State) :
    Emits ctx f (setStack stack) es fun _ es' => es' = { es with stack } :=
  fun _ _ => ⟨(), _, rfl, .setStack es stack, hstack, rfl⟩

/-! ## Branches -/

/-- The code that moves carried values. -/
def moveCode : (dst src : Nat) → List ValueType → List Stmt
  | _, _, [] => []
  | dst, src, t :: ts =>
    if dst = src then moveCode (dst + 1) (src + 1) ts
    else .assign (slotName dst t) (.var (slotName src t)) :: moveCode (dst + 1) (src + 1) ts

theorem moveSlots_emits (dst src : Nat) {ts : List ValueType} (hts : AllKnown ts) (es : State) :
    Emits ctx f (moveSlots ctx dst src ts) es fun code es' =>
      code = moveCode dst src ts ∧ (dst ≠ src → ∀ n ∈ slotNames dst ts, n ∈ es'.names)
        ∧ es'.stack = es.stack := by
  induction ts generalizing dst src es with
  | nil => exact .pure ⟨rfl, nofun, rfl⟩
  | cons t ts ih =>
      obtain ⟨ht, hts⟩ := List.forall_mem_cons.mp hts
      rw [moveSlots, moveCode]
      by_cases heq : dst = src
      · rw [if_pos heq, if_pos heq]
        refine (ih (dst + 1) (src + 1) hts es).mono ?_
        rintro _ es₁ - ⟨rfl, -, hstack₁⟩
        exact ⟨rfl, fun hne => absurd heq hne, hstack₁⟩
      · rw [if_neg heq, if_neg heq]
        refine .bind (slot_emits ht dst es) ?_
        rintro _ es₁ - ⟨rfl, hname₁, hstack₁⟩
        refine .bind (slot_emits ht src es₁) ?_
        rintro _ es₂ hgrows₂ ⟨rfl, -, hstack₂⟩
        refine .bind (ih (dst + 1) (src + 1) hts es₂) ?_
        rintro _ es₃ hgrows₃ ⟨rfl, hnames₃, hstack₃⟩
        refine .pure ⟨rfl, fun hne n hn => ?_, hstack₃.trans (hstack₂.trans hstack₁)⟩
        rw [slotNames, List.mem_cons] at hn
        rcases hn with rfl | hn
        · exact hgrows₃.names (hgrows₂.names hname₁)
        · exact hnames₃ (by omega) n hn

/-- The code of a branch to a label, with `rest` below what it carries. -/
def branchCode (lab : Label) (rest : TypeStack) : List Stmt :=
  match lab.kind with
  | .func => [.ret ((slotNames rest.length lab.types).map .var)]
  | .block => moveCode lab.height rest.length lab.types ++ [.leave lab.name]
  | .loop => moveCode lab.height rest.length lab.types ++ [.again lab.name]

/-- The variables that a branch to a label writes are declared. -/
def Label.IsDeclared (lab : Label) (rest : TypeStack) (es : State) : Prop :=
  lab.kind ≠ .func → lab.height ≠ rest.length →
    ∀ n ∈ slotNames lab.height lab.types, n ∈ es.names

theorem Label.IsDeclared.mono {lab : Label} {es' : State} (h : lab.IsDeclared rest es)
    (hgrows : es.Grows ctx f es') : lab.IsDeclared rest es' :=
  fun hkind hne n hn => hgrows.names (h hkind hne n hn)

theorem emitBranch_emits {labels : List Label} {depth : UInt32} {lab : Label}
    (hlab : labels[depth.toNat]? = some lab) (hstack : es.stack = rest ++ lab.types) :
    Emits ctx f (emitBranch ctx labels depth) es fun code es' =>
      code = branchCode lab rest ∧ lab.IsDeclared rest es' ∧ es'.stack = es.stack := by
  have hheight : es.stack.length - lab.types.length = rest.length := by
    rw [hstack, List.length_append, Nat.add_sub_cancel]
  have hlen : ¬es.stack.length < lab.types.length := by
    rw [hstack, List.length_append]; omega
  rw [emitBranch, hlab]
  refine .bind_get (.of_known fun _ hknown => ?_)
  have htypes : AllKnown lab.types := by
    rw [hstack] at hknown
    exact hknown.of_append.2
  unfold branchCode
  cases hkind : lab.kind with
  | func =>
      refine .bind (top_emits rfl hstack) ?_
      rintro _ es₁ - ⟨rfl, hstack₁⟩
      exact .pure ⟨rfl, fun hne => absurd hkind hne, hstack₁⟩
  | block =>
      dsimp only
      rw [if_neg hlen, hheight]
      refine .bind (moveSlots_emits lab.height rest.length htypes es) ?_
      rintro _ es₁ - ⟨rfl, hnames, hstack₁⟩
      exact .pure ⟨rfl, fun _ => hnames, hstack₁⟩
  | loop =>
      dsimp only
      rw [if_neg hlen, hheight]
      refine .bind (moveSlots_emits lab.height rest.length htypes es) ?_
      rintro _ es₁ - ⟨rfl, hnames, hstack₁⟩
      exact .pure ⟨rfl, fun _ => hnames, hstack₁⟩

/-- The code of a branch to the label at a depth. -/
def branchTo (labels : List Label) (rest : TypeStack) (depth : UInt32) : List Stmt :=
  match labels[depth.toNat]? with
  | some lab => branchCode lab rest
  | none => []

/-- Cases with the given bodies, numbered from `i`. -/
def numberedCases : (i : Nat) → List (List Stmt) → List Case
  | _, [] => []
  | i, body :: bodies => .mk [i.toUInt32] body :: numberedCases (i + 1) bodies

/-- The case that a selector finds is the one that it numbers. -/
theorem find_numberedCases {i : Nat} {x : UInt32} (hi : i ≤ x.toNat) (bodies : List (List Stmt)) :
    (numberedCases i bodies).find? (·.values.contains x)
      = bodies[x.toNat - i]?.map fun body => .mk [x] body := by
  induction bodies generalizing i with
  | nil => rfl
  | cons body bodies ih =>
      rw [numberedCases, List.find?_cons]
      by_cases heq : i = x.toNat
      · subst heq
        have hx : x.toNat.toUInt32 = x := UInt32.ofNat_toNat
        rw [hx, Nat.sub_self]
        simp [Case.values]
      · have hne : i.toUInt32 ≠ x := by
          rintro rfl
          have hlt := i.toUInt32.toNat_lt
          have hmod : i.toUInt32.toNat = i % 2 ^ 32 := UInt32.toNat_ofNat
          have : i < 2 ^ 32 := by omega
          rw [hmod, Nat.mod_eq_of_lt this] at heq
          exact heq rfl
        have hcontains : (Case.mk [i.toUInt32] body).values.contains x = false := by
          simp [Case.values, Ne.symm hne]
        rw [hcontains, ih (by omega)]
        have : x.toNat - i = x.toNat - (i + 1) + 1 := by omega
        rw [this, List.getElem?_cons_succ]

/-- The cases of a table branch, numbered from `i`. -/
def tableCases (labels : List Label) (rest : TypeStack) (i : Nat) (depths : List UInt32) :
    List Case :=
  numberedCases i (depths.map (branchTo labels rest))

theorem emitCases_emits {labels : List Label} {types : List ValueType} {depths : List UInt32}
    (hdepths : ∀ depth ∈ depths, ∃ lab, labels[depth.toNat]? = some lab ∧ lab.types = types)
    (i : Nat) (hstack : es.stack = rest ++ types) :
    Emits ctx f (emitCases ctx labels i depths) es fun cases es' =>
      cases = tableCases labels rest i depths
        ∧ (∀ depth ∈ depths, ∀ lab, labels[depth.toNat]? = some lab → lab.IsDeclared rest es')
        ∧ es'.stack = es.stack := by
  induction depths generalizing i es with
  | nil => exact .pure ⟨rfl, nofun, rfl⟩
  | cons depth depths ih =>
      obtain ⟨lab, hlab, rfl⟩ := hdepths depth (List.mem_cons_self ..)
      rw [emitCases]
      refine .bind (emitBranch_emits hlab hstack) ?_
      rintro _ es₁ - ⟨rfl, hdeclared₁, hstack₁⟩
      refine .bind (ih (fun d hd => hdepths d (List.mem_cons_of_mem _ hd)) (i + 1)
        (hstack₁.trans hstack)) ?_
      rintro _ es₂ hgrows ⟨rfl, hdeclared₂, hstack₂⟩
      refine .pure ⟨?_, fun d hd lab' hlab' => ?_, hstack₂.trans hstack₁⟩
      · have hbranch : branchTo labels rest depth = branchCode lab rest := by rw [branchTo, hlab]
        change _ = Case.mk _ (branchTo labels rest depth) :: tableCases labels rest (i + 1) depths
        rw [hbranch]
      · rcases List.mem_cons.mp hd with rfl | hd
        · rw [hlab] at hlab'
          cases hlab'
          exact hdeclared₁.mono hgrows
        · exact hdeclared₂ d hd lab' hlab'

end WasmShader.Emit
