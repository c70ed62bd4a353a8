import WasmShader.Proofs.EmitterRuns
import WasmShader.Proofs.EvalTyping
import WasmShader.Proofs.GlobalWords
import WasmShader.Proofs.WordCode

/-!
# Operands and locals in variables

While the code of a function runs, the operands of its stack are in the variables named for
their places, its locals in those named for them, and the globals in the words of the lane.
`Holds` states this of a state. `Beside` says what code of a function leaves alone: all
variables with other names, and everything of the lane except the globals.
-/

namespace WasmShader

open Execution (Datum Env FitsAll)

namespace Emit

/-! ## What code leaves alone -/

/-- The second state differs from the first only in operands, locals and globals. -/
structure Beside (s s' : Execution.State) : Prop where
  vars : ∀ n, ¬IsWork n → s'.vars.lookup n = s.vars.lookup n
  present : ∀ n, (s'.vars.lookup n).isSome = (s.vars.lookup n).isSome
  privates : s'.privates = s.privates
  lane : ∃ ws, ws.size = s.lane.globals.size ∧ s'.lane = s.lane.withWords .globals ws

theorem Beside.refl (s : Execution.State) : Beside s s :=
  ⟨fun _ _ => rfl, fun _ => rfl, rfl, s.lane.globals, rfl, (s.lane.withWords_words .globals).symm⟩

theorem Beside.trans {s s' s'' : Execution.State} (h : Beside s s') (h' : Beside s' s'') :
    Beside s s'' := by
  obtain ⟨ws, hsize, hlane⟩ := h.lane
  obtain ⟨ws', hsize', hlane'⟩ := h'.lane
  refine ⟨fun n hn => (h'.vars n hn).trans (h.vars n hn),
    fun n => (h'.present n).trans (h.present n), h'.privates.trans h.privates, ws', ?_, ?_⟩
  · rw [hsize', hlane]; exact hsize
  · rw [hlane', hlane, Execution.Lane.withWords_withWords]

/-- The private variable of the globals says where they are. -/
structure Addressed (s : Execution.State) : Prop where
  globalBase : s.privates.lookup globalBase = some (.ofU32 (s.lane.base .globals))
  addressable : s.lane.Addressable .globals

/-- The code's variables are there, and the globals can be addressed. -/
structure Ready (es : State) (s : Execution.State) : Prop extends Addressed s where
  present : ∀ n ∈ es.names, (s.vars.lookup n).isSome = true
  noGlobalBase : s.vars.lookup Emit.globalBase = none

theorem not_isWork_globalBase : ¬IsWork globalBase :=
  not_isWork_of_mem_privates (v := ⟨globalBase, .u32⟩) (by decide)

theorem Ready.of_grows {ctx : Context} {f : Function} {es es' : State} {s : Execution.State}
    (h : Ready es' s) (hgrows : es.Grows ctx f es') : Ready es s :=
  ⟨h.toAddressed, fun n hn => h.present n (hgrows.names hn), h.noGlobalBase⟩

theorem Ready.beside {es : State} {s s' : Execution.State} (h : Ready es s) (hb : Beside s s') :
    Ready es s' := by
  obtain ⟨ws, hsize, hlane⟩ := hb.lane
  refine ⟨⟨?_, ?_⟩, fun n hn => (hb.present n).trans (h.present n hn),
    (hb.vars _ not_isWork_globalBase).trans h.noGlobalBase⟩
  · rw [hb.privates, h.globalBase, hlane, Execution.Lane.base_withWords (r := .globals) hsize]
  · rw [hlane]; exact h.addressable.withWords hsize

/-- A new value for a variable of the code. -/
theorem exists_assign {s : Execution.State} {name : String}
    (hname : (s.vars.lookup name).isSome = true) (hwork : IsWork name) (d : Datum) :
    ∃ s', s.assign? name d = some s' ∧ Beside s s' ∧ s'.lane = s.lane
      ∧ ∀ n, s'.vars.lookup n = if n = name then some d else s.vars.lookup n := by
  obtain ⟨old, hold⟩ := Option.isSome_iff_exists.mp hname
  obtain ⟨vars, hassign, hvars⟩ := Execution.State.assign?_of_lookup hold d
  refine ⟨_, hassign, ⟨fun n hn => ?_, fun n => ?_, rfl, ?_⟩, rfl, hvars⟩
  · change vars.lookup n = _
    rw [hvars, if_neg (by rintro rfl; exact hn hwork)]
  · change (vars.lookup n).isSome = _
    rw [hvars]
    split
    · next heq => rw [heq, hold]; rfl
    · rfl
  · exact ⟨s.lane.globals, rfl, (s.lane.withWords_words .globals).symm⟩

/-! ## Variables that hold values -/

/-- The variables hold the values, one each. -/
abbrev Stand (s : Execution.State) (names : List String) (data : List Datum) : Prop :=
  List.Forall₂ (fun n d => s.vars.lookup n = some d) names data

theorem Stand.of_eq {s s' : Execution.State} {names : List String} {data : List Datum}
    (h : Stand s names data) (heq : ∀ n ∈ names, s'.vars.lookup n = s.vars.lookup n) :
    Stand s' names data := by
  induction h with
  | nil => exact .nil
  | @cons n d names data hd _ ih =>
      exact .cons ((heq n (List.mem_cons_self ..)).trans hd)
        (ih fun m hm => heq m (List.mem_cons_of_mem _ hm))

/-- Variables can be read as expressions. -/
theorem Stand.eval {s : Execution.State} {names : List String} {data : List Datum}
    (h : Stand s names data) (l : Layout) :
    List.Forall₂ (fun e d => Execution.eval l s e = .ok d) (names.map .var) data := by
  induction h with
  | nil => exact .nil
  | cons hd _ ih => exact .cons (Execution.State.lookup_of_vars hd) ih

theorem Stand.of_append {s : Execution.State} {ns ms : List String} {as bs : List Datum}
    (h : Stand s (ns ++ ms) (as ++ bs)) (hlen : ns.length = as.length) :
    Stand s ns as ∧ Stand s ms bs := by
  induction ns generalizing as with
  | nil =>
      obtain rfl := List.length_eq_zero_iff.mp hlen.symm
      exact ⟨.nil, h⟩
  | cons n ns ih =>
      cases as with
      | nil => cases hlen
      | cons a as =>
          cases h with
          | cons hd htail =>
              obtain ⟨hns, hms⟩ := ih htail (Nat.succ.inj hlen)
              exact ⟨.cons hd hns, hms⟩

variable {σ : Type}

/-- The operands below some others, and those. -/
theorem Stand.split {s : Execution.State} {types us : List ValueType} {data bs : List Datum}
    (h : Stand s (slotNames 0 (types ++ us)) (data ++ bs)) (hlen : types.length = data.length) :
    Stand s (slotNames 0 types) data ∧ Stand s (slotNames types.length us) bs := by
  rw [slotNames_append, Nat.zero_add] at h
  exact h.of_append (by rw [length_slotNames, hlen])

theorem Stand.length_slots {s : Execution.State} {k : Nat} {types : List ValueType}
    {data : List Datum} (h : Stand s (slotNames k types) data) : types.length = data.length := by
  rw [← length_slotNames k types]; exact List.Forall₂.length_eq h

/-- The operands below a height. -/
theorem Stand.take {s : Execution.State} {types : List ValueType} {data : List Datum}
    (h : Stand s (slotNames 0 types) data) (n : Nat) :
    Stand s (slotNames 0 (types.take n)) (data.take n) := by
  have hlen := h.length_slots
  rw [← List.take_append_drop n types, ← List.take_append_drop n data] at h
  exact (h.split (by rw [List.length_take, List.length_take, hlen])).1

/-- The operands on top, in their variables. -/
theorem Stand.top {s : Execution.State} {types : List ValueType} {data : List Datum}
    (h : Stand s (slotNames 0 types) data) (k : Nat) :
    Stand s (slotNames (types.length - k) (TypeStack.top types k)) (Structured.top k data) := by
  have hlen := h.length_slots
  rw [← List.take_append_drop (types.length - k) types,
    ← List.take_append_drop (data.length - k) data] at h
  have habove := (h.split (by rw [List.length_take, List.length_take, hlen])).2
  rwa [List.length_take, Nat.min_eq_left (Nat.sub_le ..)] at habove

/-- The variables and words of the state are the operands, locals and globals. -/
structure Holds (p : Program) (l : Layout) (types : List ValueType) (data : List Datum)
    (st : Structured.Store σ) (s : Execution.State) : Prop where
  slots : Stand s (slotNames 0 types) data
  locals : ∀ i d, s.vars.lookup (localName i) = some d → st.locals[i]? = some d
  globals : s.lane.globals.toList = p.globalWords l st.shared.globals

namespace Holds

variable {p : Program} {l : Layout} {types us : List ValueType} {data bs : List Datum}
  {st : Structured.Store σ} {s : Execution.State}

theorem length_eq (h : Holds p l types data st s) : types.length = data.length :=
  h.slots.length_slots

theorem below (h : Holds p l (types ++ us) (data ++ bs) st s) (hlen : us.length = bs.length) :
    Holds p l types data st s ∧ Stand s (slotNames types.length us) bs := by
  have htotal := h.length_eq
  rw [List.length_append, List.length_append] at htotal
  obtain ⟨hbelow, habove⟩ := h.slots.split (by omega)
  exact ⟨⟨hbelow, h.locals, h.globals⟩, habove⟩

theorem append (h : Holds p l types data st s) (habove : Stand s (slotNames types.length us) bs) :
    Holds p l (types ++ us) (data ++ bs) st s := by
  refine ⟨?_, h.locals, h.globals⟩
  rw [slotNames_append, Nat.zero_add]
  exact List.rel_append h.slots habove

/-- The operands below a height. -/
theorem take (h : Holds p l types data st s) (n : Nat) :
    Holds p l (types.take n) (data.take n) st s :=
  ⟨h.slots.take n, h.locals, h.globals⟩

/-- A new value at or above a place beyond the operands. -/
theorem set_above (h : Holds p l types data st s) {s' : Execution.State} {k : Nat}
    {t : ValueType} {d : Datum} (hk : types.length ≤ k) (hlane : s'.lane = s.lane)
    (hvars : ∀ n, s'.vars.lookup n
      = if n = slotName k t then some d else s.vars.lookup n) :
    Holds p l types data st s' := by
  refine ⟨h.slots.of_eq fun n hn => ?_, fun i d' hd' => ?_, hlane ▸ h.globals⟩
  · obtain ⟨j, t', rfl, -, hj⟩ := mem_slotNames hn
    rw [hvars, if_neg fun heq => ?_]
    have := place_eq_of_slotName heq
    omega
  · rw [hvars, if_neg (localName_ne_slotName i k t)] at hd'
    exact h.locals i d' hd'

/-- A value pushed. -/
theorem push (h : Holds p l types data st s) {t : ValueType} {name : String}
    (hname : name = slotName types.length t)
    (hpresent : (s.vars.lookup name).isSome = true) (d : Datum) :
    ∃ s', s.assign? name d = some s' ∧ Beside s s'
      ∧ Holds p l (types ++ [t]) (data ++ [d]) st s'
      ∧ ∀ n, n ≠ name → s'.vars.lookup n = s.vars.lookup n := by
  subst hname
  obtain ⟨s', hassign, hbeside, hlane, hvars⟩ :=
    exists_assign hpresent (isWork_slotName types.length t) d
  refine ⟨s', hassign, hbeside, (h.set_above (Nat.le_refl _) hlane hvars).append ?_,
    fun n hn => by rw [hvars, if_neg hn]⟩
  exact .cons (by rw [hvars, if_pos rfl]) .nil

/-- A new value for a local. -/
theorem setLocal (h : Holds p l types data st s) {i : Nat}
    (hpresent : (s.vars.lookup (localName i)).isSome = true) (hi : i < st.locals.length)
    (d : Datum) :
    ∃ s', s.assign? (localName i) d = some s' ∧ Beside s s'
      ∧ Holds p l types data { st with locals := st.locals.set i d } s' := by
  obtain ⟨s', hassign, hbeside, hlane, hvars⟩ := exists_assign hpresent (isWork_localName i) d
  refine ⟨s', hassign, hbeside, h.slots.of_eq fun n hn => ?_, fun j d' hd' => ?_,
    hlane ▸ h.globals⟩
  · obtain ⟨k, t, rfl, -⟩ := mem_slotNames hn
    rw [hvars, if_neg (localName_ne_slotName i k t).symm]
  · rw [hvars] at hd'
    change (st.locals.set i d)[j]? = some d'
    split at hd'
    · next heq =>
      obtain rfl := localName_inj heq
      cases hd'
      exact List.getElem?_set_self hi
    · next hne =>
      rw [List.getElem?_set_ne (fun heq => hne (by rw [heq]))]
      exact h.locals j d' hd'

/-- Values pushed one after the other. -/
theorem pushAll (h : Holds p l types data st s)
    (hpresent : ∀ n ∈ slotNames types.length us, (s.vars.lookup n).isSome = true)
    (hlen : us.length = bs.length) :
    ∃ s', Execution.Exec.outcome (Execution.Exec.assignAll (slotNames types.length us) bs) s
        = some (.ok (), s') ∧ Beside s s' ∧ Holds p l (types ++ us) (data ++ bs) st s' := by
  induction us generalizing types data bs s with
  | nil =>
      obtain rfl := List.length_eq_zero_iff.mp hlen.symm
      refine ⟨s, rfl, .refl s, ?_⟩
      rw [List.append_nil, List.append_nil]
      exact h
  | cons t us ih =>
      cases bs with
      | nil => cases hlen
      | cons d bs =>
          obtain ⟨s₁, hassign, hbeside₁, hholds₁, -⟩ :=
            h.push rfl (hpresent _ (List.mem_cons_self ..)) d
          obtain ⟨s₂, hall, hbeside₂, hholds₂⟩ := ih hholds₁ (fun n hn => by
            rw [hbeside₁.present]
            refine hpresent n (List.mem_cons_of_mem _ ?_)
            rwa [List.length_append] at hn) (Nat.succ.inj hlen)
          refine ⟨s₂, ?_, hbeside₁.trans hbeside₂, ?_⟩
          · rw [slotNames, Execution.Exec.assignAll,
              Execution.Exec.outcome_bind_ok (Execution.outcome_assign hassign)]
            rw [List.length_append] at hall
            exact hall
          · rw [List.append_assoc, List.append_assoc] at hholds₂
            exact hholds₂

/-- Carried values moved down to the operands they go on top of. The lowest is moved first,
so that none is overwritten before it is moved. -/
theorem move (env : Env) (h : Holds p l types data st s) (src : Nat) (hle : types.length ≤ src)
    (habove : Stand s (slotNames src us) bs)
    (hpresent : types.length ≠ src →
      ∀ n ∈ slotNames types.length us, (s.vars.lookup n).isSome = true) :
    ∃ s', Execution.meaning env (moveCode types.length src us) s = some (.ok .next, s')
      ∧ Beside s s' ∧ Holds p l (types ++ us) (data ++ bs) st s' := by
  induction us generalizing types data bs s src with
  | nil =>
      cases habove with
      | nil =>
          refine ⟨s, Execution.meaning_nil, .refl s, ?_⟩
          rw [List.append_nil, List.append_nil]
          exact h
  | cons t us ih =>
      cases habove with
      | @cons n d names bs hd habove =>
          have happend {s' : Execution.State} :
              Holds p l ((types ++ [t]) ++ us) ((data ++ [d]) ++ bs) st s'
                → Holds p l (types ++ t :: us) (data ++ d :: bs) st s' := by
            rw [List.append_assoc, List.append_assoc]; exact id
          have hlength : (types ++ [t]).length = types.length + 1 := by
            rw [List.length_append, List.length_singleton]
          rw [moveCode]
          by_cases heq : types.length = src
          · rw [if_pos heq]
            subst heq
            have h₁ : Holds p l (types ++ [t]) (data ++ [d]) st s := h.append (.cons hd .nil)
            obtain ⟨s', hrun, hbeside, hholds⟩ :=
              ih h₁ (types.length + 1) (Nat.le_of_eq hlength) habove
                (fun hne => absurd hlength hne)
            rw [hlength] at hrun
            exact ⟨s', hrun, hbeside, happend hholds⟩
          · rw [if_neg heq]
            obtain ⟨s₁, hassign, hbeside₁, hholds₁, hother⟩ :=
              h.push rfl (hpresent heq _ (List.mem_cons_self ..)) d
            have habove₁ : Stand s₁ (slotNames (src + 1) us) bs := by
              refine Stand.of_eq habove fun m hm => hother m ?_
              obtain ⟨k, t', rfl, hk, -⟩ := mem_slotNames hm
              intro heq'
              have := place_eq_of_slotName heq'
              omega
            obtain ⟨s', hrun, hbeside, hholds⟩ :=
              ih hholds₁ (src + 1) (by rw [hlength]; omega) habove₁ (fun _ m hm => by
                rw [hbeside₁.present]
                rw [hlength] at hm
                exact hpresent heq m (List.mem_cons_of_mem _ hm))
            rw [hlength] at hrun
            refine ⟨s', ?_, hbeside₁.trans hbeside, happend hholds⟩
            have hsource : Execution.eval env.exe.layout s (.var (slotName src t)) = .ok d :=
              Execution.State.lookup_of_vars hd
            rw [Execution.meaning_cons_next (Execution.stmtMeaning_assign hsource hassign)]
            exact hrun

end Holds

end Emit

end WasmShader
