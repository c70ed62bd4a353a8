import WasmShader.Emit.Direct
import WasmShader.Proofs.Meaning
import WasmShader.Proofs.Typing

/-!
# Variables

The names that emission gives to operands, locals and parameters, and what assigning to a
variable does to the others. Operands at different places of the stack have different
variables whatever their types, and none of these names is one of the fixed ones.
-/

namespace WasmShader

namespace Emit

/-! ## Names -/

/-- The variable of the operand at a place. -/
def slotName (place : Nat) (t : ValueType) : String := "s" ++ toString place ++ "_" ++ t.name

/-- The variable of a local. -/
def localName (i : Nat) : String := "l" ++ toString i

/-- The variable of an operand or a local. -/
def IsWork (name : String) : Prop := (∃ k t, name = slotName k t) ∨ ∃ i, name = localName i

theorem toList_toString (n : Nat) : (toString n).toList = Nat.toDigits 10 n := Nat.toList_repr

theorem isDigit_of_mem_toString {n : Nat} {c : Char} (h : c ∈ (toString n).toList) :
    c.isDigit = true := by
  rw [toList_toString] at h
  exact Nat.isDigit_of_mem_toDigits (by decide) (by decide) h

theorem toString_inj {m n : Nat} (h : (toString m).toList = (toString n).toList) : m = n := by
  rw [toList_toString, toList_toString] at h
  have hread := congrArg (Nat.ofDigitChars 10 · 0) h
  simpa only [Nat.ofDigitChars_toDigits (b := 10) (by decide) (by decide)] using hread

/-- A number is not empty. -/
theorem exists_digit (n : Nat) : ∃ c cs, (toString n).toList = c :: cs ∧ c.isDigit = true := by
  cases h : (toString n).toList with
  | nil =>
      rw [toList_toString] at h
      exact absurd h Nat.toDigits_ne_nil
  | cons c cs => exact ⟨c, cs, rfl, isDigit_of_mem_toString (h ▸ List.mem_cons_self)⟩

theorem toList_slotName (k : Nat) (t : ValueType) :
    (slotName k t).toList = 's' :: ((toString k).toList ++ '_' :: t.name.toList) := by
  simp [slotName, String.toList_append]

theorem toList_localName (i : Nat) : (localName i).toList = 'l' :: (toString i).toList := by
  simp [localName, String.toList_append]

theorem toList_paramName (i : Nat) : (paramName i).toList = 'a' :: (toString i).toList := by
  simp [paramName, String.toList_append]

/-- Operands at different places have different variables. -/
theorem place_eq_of_slotName {k k' : Nat} {t t' : ValueType} (h : slotName k t = slotName k' t') :
    k = k' := by
  have hlist := congrArg String.toList h
  rw [toList_slotName, toList_slotName, List.cons.injEq] at hlist
  have hdigit {n : Nat} : ∀ c ∈ (toString n).toList, (c != '_') = true := by
    intro c hc
    have hd := isDigit_of_mem_toString hc
    rw [bne_iff_ne]
    rintro rfl
    cases hd
  have htake {n : Nat} {cs : List Char} :
      ((toString n).toList ++ '_' :: cs).takeWhile (· != '_') = (toString n).toList := by
    rw [List.takeWhile_append_of_pos hdigit]
    simp
  have heq := congrArg (List.takeWhile (· != '_')) hlist.2
  rw [htake, htake] at heq
  exact toString_inj heq

theorem localName_inj {i j : Nat} (h : localName i = localName j) : i = j := by
  have hlist := congrArg String.toList h
  rw [toList_localName, toList_localName, List.cons.injEq] at hlist
  exact toString_inj hlist.2

theorem paramName_inj {i j : Nat} (h : paramName i = paramName j) : i = j := by
  have hlist := congrArg String.toList h
  rw [toList_paramName, toList_paramName, List.cons.injEq] at hlist
  exact toString_inj hlist.2

theorem localName_ne_slotName (i k : Nat) (t : ValueType) : localName i ≠ slotName k t := by
  intro h
  have hlist := congrArg String.toList h
  rw [toList_localName, toList_slotName, List.cons.injEq] at hlist
  exact absurd hlist.1 (by decide)

/-- No variable of an operand or local starts like a parameter. -/
theorem not_isWork_paramName (i : Nat) : ¬IsWork (paramName i) := by
  rintro (⟨k, t, h⟩ | ⟨j, h⟩)
  · have hlist := congrArg String.toList h
    rw [toList_paramName, toList_slotName, List.cons.injEq] at hlist
    exact absurd hlist.1 (by decide)
  · have hlist := congrArg String.toList h
    rw [toList_paramName, toList_localName, List.cons.injEq] at hlist
    exact absurd hlist.1 (by decide)

/-- A name that starts with neither letter, or has no digit behind it, is not the variable of
an operand or local. -/
theorem not_isWork_of_toList {name : String} {c d : Char} {r : List Char}
    (hname : name.toList = c :: d :: r) (h : c ≠ 'l' ∧ c ≠ 's' ∨ d.isDigit = false) :
    ¬IsWork name := by
  rintro (⟨k, t, heq⟩ | ⟨j, heq⟩)
  · obtain ⟨e, es, hdigits, he⟩ := exists_digit k
    have hlist := congrArg String.toList heq
    rw [hname, toList_slotName, hdigits, List.cons_append, List.cons.injEq, List.cons.injEq]
      at hlist
    obtain ⟨rfl, rfl, -⟩ := hlist
    rcases h with h | h
    · exact h.2 rfl
    · rw [he] at h; cases h
  · obtain ⟨e, es, hdigits, he⟩ := exists_digit j
    have hlist := congrArg String.toList heq
    rw [hname, toList_localName, hdigits, List.cons.injEq, List.cons.injEq] at hlist
    obtain ⟨rfl, rfl, -⟩ := hlist
    rcases h with h | h
    · exact h.1 rfl
    · rw [he] at h; cases h

theorem not_isWork_spVar : ¬IsWork spVar :=
  not_isWork_of_toList (c := 's') (d := 'p') (r := []) rfl (.inr rfl)

theorem not_isWork_of_mem_privates {v : Shader.Variable} (h : v ∈ privates) : ¬IsWork v.name := by
  simp only [privates, List.mem_cons, List.not_mem_nil, or_false] at h
  rcases h with rfl | rfl | rfl | rfl
  · exact not_isWork_of_toList (c := 'h') (d := 'b') (r := "ase".toList) rfl (.inr rfl)
  · exact not_isWork_of_toList (c := 's') (d := 'b') (r := "ase".toList) rfl (.inr rfl)
  · exact not_isWork_of_toList (c := 'i') (d := 'o') (r := "base".toList) rfl (.inr rfl)
  · exact not_isWork_of_toList (c := 'g') (d := 'b') (r := "ase".toList) rfl (.inr rfl)

theorem isWork_slotName (k : Nat) (t : ValueType) : IsWork (slotName k t) := .inl ⟨k, t, rfl⟩

theorem isWork_localName (i : Nat) : IsWork (localName i) := .inr ⟨i, rfl⟩

end Emit

/-! ## Assignment -/

namespace Execution

theorem Vars.lookup_set? {vars vars' : Vars} {name : String} {v : Datum}
    (h : vars.set? name v = some vars') (n : String) :
    vars'.lookup n = if n = name then some v else vars.lookup n := by
  induction vars generalizing vars' with
  | nil => cases h
  | cons x rest ih =>
      obtain ⟨m, old⟩ := x
      rw [Vars.set?] at h
      split at h
      · next heq =>
        cases h
        subst heq
        by_cases hn : n = m
        · subst hn; simp
        · rw [List.lookup_cons, List.lookup_cons, beq_eq_false_iff_ne.mpr hn, if_neg hn]
      · next hne =>
        obtain ⟨rest', hrest, rfl⟩ := Option.map_eq_some_iff.mp h
        rw [List.lookup_cons, List.lookup_cons, ih hrest]
        by_cases hm : n = m
        · subst hm; simp [hne]
        · rw [beq_eq_false_iff_ne.mpr hm]

theorem Vars.exists_set? {vars : Vars} {name : String} {d : Datum}
    (h : vars.lookup name = some d) (v : Datum) : ∃ vars', vars.set? name v = some vars' := by
  induction vars with
  | nil => cases h
  | cons x rest ih =>
      obtain ⟨m, old⟩ := x
      rw [Vars.set?]
      by_cases hm : m = name
      · exact ⟨_, if_pos hm⟩
      · rw [List.lookup_cons, beq_eq_false_iff_ne.mpr (Ne.symm hm)] at h
        obtain ⟨vars', hvars'⟩ := ih h
        exact ⟨(m, old) :: vars', by rw [if_neg hm, hvars']; rfl⟩

/-- Assigning to a variable of the running function changes it and nothing else. -/
theorem State.assign?_of_lookup {s : State} {name : String} {d : Datum}
    (h : s.vars.lookup name = some d) (v : Datum) :
    ∃ vars', s.assign? name v = some { s with vars := vars' }
      ∧ ∀ n, vars'.lookup n = if n = name then some v else s.vars.lookup n := by
  obtain ⟨vars', hvars'⟩ := Vars.exists_set? h v
  refine ⟨vars', ?_, Vars.lookup_set? hvars'⟩
  rw [State.assign?, hvars']

theorem State.lookup_of_vars {s : State} {name : String} {d : Datum}
    (h : s.vars.lookup name = some d) : s.lookup name = .ok d := by
  rw [State.lookup, h]

theorem State.lookup_of_privates {s : State} {name : String} {d : Datum}
    (hvars : s.vars.lookup name = none) (h : s.privates.lookup name = some d) :
    s.lookup name = .ok d := by
  rw [State.lookup, hvars, h]

end Execution

/-! ## Carriers of known types -/

namespace Shader.Ty

theorem carrierOf_eq {l : Layout} {t : ValueType} (h : t.isKnown = true) :
    carrierOf l t = .ok (carrier l t) := if_pos h

theorem mapM_carrierOf {l : Layout} {ts : List ValueType} (h : AllKnown ts) :
    ts.mapM (carrierOf l) = .ok (ts.map (carrier l)) := by
  induction ts with
  | nil => rfl
  | cons t ts ih =>
      obtain ⟨ht, hts⟩ := List.forall_mem_cons.mp h
      rw [List.mapM_cons, carrierOf_eq ht, ih hts]
      rfl

theorem eq_of_mapM_carrierOf {l : Layout} {ts : List ValueType} {carriers : List Ty}
    (h : ts.mapM (carrierOf l) = .ok carriers) : carriers = ts.map (carrier l) := by
  induction ts generalizing carriers with
  | nil => cases h; rfl
  | cons t ts ih =>
      rw [List.mapM_cons] at h
      obtain ⟨c, hc, h⟩ := Program.bind_eq_ok h
      obtain ⟨cs, hcs, h⟩ := Program.bind_eq_ok h
      cases h
      unfold carrierOf at hc
      split at hc
      · cases hc
        rw [ih hcs, List.map_cons]
      · cases hc

end Shader.Ty

namespace Emit

variable {ctx : Context} {f : Function}

/-- The direct form of a function with a given body and the variables of a state. -/
def directFormOf (ctx : Context) (f : Function) (code : List Shader.Stmt) (es : State) :
    Shader.Function where
  name := directName f.index
  params := f.type.params.mapIdx fun i t => ⟨paramName i, Shader.Ty.carrier ctx.layout t⟩
  results := f.type.results.map (Shader.Ty.carrier ctx.layout)
  locals := es.declared
  body := code

theorem mapIdx_map_carrier (l : Layout) (ts : List ValueType) :
    ((ts.map (Shader.Ty.carrier l)).mapIdx fun i t => (⟨paramName i, t⟩ : Shader.Variable))
      = ts.mapIdx fun i t => ⟨paramName i, Shader.Ty.carrier l t⟩ := by
  refine List.ext_getElem? fun i => ?_
  rw [List.getElem?_mapIdx, List.getElem?_mapIdx, List.getElem?_map, Option.map_map]
  rfl

/-- A function of known type whose body can be emitted has a direct form. -/
theorem directFunction_of_body {body : Body} {code : List Shader.Stmt} {es : State}
    (hknown : f.type.Known) (hbody : f.body = .ok body)
    (hrun : emitDirectBody ctx f body {} = .ok (code, es)) :
    directFunction ctx f = .ok (directFormOf ctx f code es) := by
  unfold directFunction
  rw [hbody, Shader.Ty.mapM_carrierOf hknown.params, Shader.Ty.mapM_carrierOf hknown.results]
  change (emitDirectBody ctx f body {} >>= fun r => _) = _
  rw [hrun, directFormOf, ← mapIdx_map_carrier]
  rfl

theorem body_of_directFunction {fn : Shader.Function} (h : directFunction ctx f = .ok fn) :
    ∃ body code es, f.body = .ok body ∧ emitDirectBody ctx f body {} = .ok (code, es)
      ∧ fn = directFormOf ctx f code es := by
  obtain ⟨body, hbody, h⟩ := Program.bind_eq_ok h
  obtain ⟨params, hparams, h⟩ := Program.bind_eq_ok h
  obtain ⟨results, hresults, h⟩ := Program.bind_eq_ok h
  obtain ⟨⟨code, es⟩, hrun, h⟩ := Program.bind_eq_ok h
  cases h
  refine ⟨body, code, es, Program.liftFailure_eq_ok hbody, hrun, ?_⟩
  rw [Shader.Ty.eq_of_mapM_carrierOf hparams, Shader.Ty.eq_of_mapM_carrierOf hresults,
    mapIdx_map_carrier]
  rfl

end Emit

end WasmShader
