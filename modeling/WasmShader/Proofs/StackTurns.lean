import WasmShader.Proofs.FramePiles
import WasmShader.Proofs.LanesInStep

/-!
# Turns of one lane

A lane is abreast with itself. So what is known of two lanes that run the same code gives what the
code makes of the stack of one: the words in use in front of a block are a pile, and those behind its
function are what a turn makes of them (`Piled.turn`).
-/

namespace WasmShader.Execution

open Compile Emit Exec

section Alone

variable {env : Env} {d : Pair} {s s' : State} {a b : Array UInt32} {V : Nat} {ws : List UInt32}

/-- A run of one lane is one of two. -/
theorem Leads.alone {code : List Shader.Stmt} {P : State → State → Prop}
    {Q : Flow → State → State → Prop} (h : Leads env code P Q) (hP : P s s) {n : Nat} {flow : Flow}
    (hrun : outcome (stmts env n code) s = some (.ok flow, s')) : Q flow s' s' := by
  have htogether := h n s s hP
  rw [hrun] at htogether
  cases htogether with
  | some hmeets =>
      cases hmeets with
      | value hQ => exact hQ

theorem Found.alone (h : Found d a b s s) : Found d a a s s :=
  ⟨h.toAbreast, h.toAnchored, h.own, h.own⟩

/-- The regions have been found, and these are the words in use. -/
def InUse (d : Pair) (ws : List UInt32) (s : State) : Prop :=
  ∃ a V, Found d a a s s ∧ a[0]? = some (V.toUInt32 - 2) ∧ 2 ≤ V ∧ V ≤ d.size .stack
    ∧ between a 2 V = ws

theorem InUse.withVars (h : InUse d ws s) {vars : Vars} (hclear : ∀ v ∈ vars, v.1 ∉ baseNames) :
    InUse d ws { s with vars } := by
  obtain ⟨a, V, hfound, hrest⟩ := h
  exact ⟨a, V, hfound.withVars hclear, hrest⟩

theorem InUse.clear (h : InUse d ws s) : ∀ v ∈ s.vars, v.1 ∉ baseNames := by
  obtain ⟨a, V, hfound, -⟩ := h
  exact hfound.clear

/-- What leaves the stack alone leaves the words in use as they are. -/
theorem InUse.steady {α : Type} {code : Exec α} (hcode : ∀ σ τ, Steady d σ τ code)
    (h : InUse d ws s) {v : α} (hrun : outcome code s = some (.ok v, s')) : InUse d ws s' := by
  obtain ⟨a, V, hfound, hrest⟩ := h
  have htogether := hfound.steady (hcode ⟨a⟩ ⟨a⟩)
  rw [hrun] at htogether
  cases htogether with
  | some hmeets =>
      cases hmeets with
      | value hQ => exact ⟨a, V, hQ.1, hrest⟩

/-- The stack pointer counts the words in use. -/
theorem InUse.used (h : InUse d ws s) (hsize : d.size .stack < 2 ^ 32) :
    s.lane.stack.used = ws := by
  obtain ⟨a, V, hfound, hheader, htwo, hV, rfl⟩ := h
  obtain rfl := hfound.own
  have hsp : (LaneStack.sp s.lane.stack).toNat = V - 2 := sp_of_header hheader htwo (by omega)
  rw [LaneStack.used, hsp, LaneStack.headerWords, Nat.add_sub_cancel' htwo]
  rfl

/-- With the stack pointer in the header the words up to it are in use. -/
theorem Found.inUse (h : Found d (written a [(0, V.toUInt32 - 2)]) b s s) (htwo : 2 ≤ V)
    (hV : V ≤ d.size .stack) : InUse d (between a 2 V) s := by
  have hsize := h.size_own
  rw [size_written] at hsize
  have hnot {i : Nat} (hi : 2 ≤ i) :
      i ∉ ([(0, V.toUInt32 - 2)] : List (Nat × UInt32)).map (·.1) := by
    rw [List.map_singleton, List.mem_singleton]
    omega
  refine ⟨_, V, h.alone, ?_, htwo, hV, between_congr fun i hi _ => getElem?_written_of_not_mem (hnot hi)⟩
  rw [written_cons, getElem?_written_of_not_mem List.not_mem_nil,
    Array.getElem?_setIfInBounds_self_of_lt (by omega)]

end Alone

section Turns

variable {p : Program} {frames : List Frames} {out : Compiled} {inv : Invoked} {d : Pair} {env : Env}
  {s s' : State} {ws : List UInt32}

theorem Exits.le {fr : Frames} {H V : Nat} {a b a' b' : Array UInt32} {t : Terminator}
    (h : Exits (out.blockContext fr) H a b t V a' b') : H ≤ V := by
  cases h with
  | edge => exact Nat.le_add_right _ _
  | transfer =>
      rw [Nat.add_assoc, Nat.add_assoc]
      exact Nat.le_add_right _ _
  | ret => exact Nat.le_refl H

/-- The number on top of a pile. -/
theorem between_getLast? {a : Array UInt32} {V : Nat} (htwo : 2 < V) (hV : V ≤ a.size) :
    (between a 2 V).getLast? = a[V - 1]? := by
  have hlt : V - 1 < a.size := by omega
  rw [← between_append (show 2 ≤ V - 1 by omega) (Nat.sub_le V 1)]
  have hlast := between_singleton (Array.getElem?_eq_getElem hlt)
  rw [Nat.sub_add_cancel (by omega)] at hlast
  rw [hlast, List.getLast?_concat, Array.getElem?_eq_getElem hlt]

/-- The dispatcher stops, or it has read the number on top. -/
theorem InUse.looking (hplaced : Placed out d env) (h : InUse d ws s) {n : Nat} {flow : Flow}
    (hrun : outcome (stmts env n looking) s = some (.ok flow, s')) :
    InUse d ws s' ∧ (flow = .leave dispatchLabel ∨ flow = .next ∧ ∃ w, ws.getLast? = some w
      ∧ s'.vars.lookup numberVar = some (.ofU32 w)) := by
  obtain ⟨a, V, hfound, hheader, htwo, hV, rfl⟩ := h
  obtain ⟨hfound', hflow⟩ := (looking_leads hplaced htwo hV hheader fun _ => rfl).alone hfound hrun
  refine ⟨⟨a, V, hfound', hheader, htwo, hV, rfl⟩, hflow.imp_right ?_⟩
  rintro ⟨rfl, hne, -, w, hw, hnumber⟩
  refine ⟨rfl, w, ?_, hnumber⟩
  rw [between_getLast? (by omega) (hfound.size_own ▸ hV), hw]

/-- The function of the block on top makes a turn of the words in use, if it comes to its end. -/
theorem OnPile.turn (hlinked : Linked p frames out) (hplaced : Placed out d env) {fr : Frames} {k : Nat}
    {b : Block} {below frame : List UInt32} (hpile : OnPile frames out inv fr k b below frame)
    {f : Shader.Function} (hruns : Runs out ((out.blockContext fr).numberOf k) f) :
    f.Lawful DirectSite (fun _ => True) ∧ f.params = [] ∧ ∀ s, InUse d (below ++ frame) s →
      ∀ n flow s', outcome (stmts env n f.body) s = some (.ok flow, s') → flow.Stays
        ∧ (flow = .next → ∃ ws', Turn frames out inv (below ++ frame) ws' ∧ InUse d ws' s') := by
  obtain ⟨-, hsmall⟩ := hplaced.bounds
  have hmachine := hlinked.machined fr hpile.mem
  have hmem := List.mem_of_getElem? hpile.block
  obtain ⟨f', hcode, hlawful, hruns'⟩ := hmachine.emitted k b hpile.block
  obtain rfl := hruns.unique hlinked hruns'
  obtain ⟨-, -, -, hparams, -⟩ := name_of_blockFunction hcode
  have hdirect : Lawful env.exe.module DirectSite fun _ => True := fun c hc f hf =>
    (hlinked.runnable.direct c hc f (by rw [hplaced.exe] at hf; exact hf)).mono
      (fun _ => id) fun _ _ => trivial
  refine ⟨hlawful, hparams, fun s h n flow s' hrun => ?_⟩
  obtain ⟨a, V, hfound, hheader, htwo, hV, hwords⟩ := h
  obtain ⟨hheight, hbelow, -⟩ := between_eq_append hwords htwo (hfound.size_own ▸ hV)
  generalize hH : 2 + below.length = H at hheight hbelow
  rw [hpile.frame.length] at hheight
  subst hheight
  have hleads : Leads env _ (Found d a a) _ := block_leads hmachine.fit (by rw [hplaced.exe]; rfl)
    (hplaced.suits fr) hmachine.locals hpile.block (hmachine.operands _ hmem) (hmachine.typed _ hmem)
    (hmachine.stays _ hmem)
    (hmachine.numbered _ hmem) hmachine.known hcode hlawful.body hdirect
    (by rw [hplaced.exe]; exact hlinked.apart) (show 0 < H by omega) hV hheader
    fun _ _ _ => rfl
  rcases hleads.alone hfound hrun with ⟨hne, hstays, -⟩ | ⟨rfl, V', a', b', hexits, hV', hfound'⟩
  · exact ⟨hstays, fun hnext => absurd hnext hne⟩
  · refine ⟨nofun, fun _ => ?_⟩
    have hsize' := hfound'.size_own
    rw [size_written] at hsize'
    have hle := hexits.le
    subst hbelow
    exact ⟨_, hexits.turn hlinked (by omega) hpile (by rw [hfound.size_own]; omega)
      (hsize' ▸ hV'), hfound'.inUse (by omega) hV'⟩

/-- The exit block leaves nothing in use. -/
theorem exitBlock_turn (hplaced : Placed out d env) {values : List UInt32}
    (hvalues : values.length = out.layout.sizeOf inv.results) (name : String)
    (h : InUse d (values ++ [inv.exit.val]) s) {n : Nat} {flow : Flow}
    (hrun : outcome (stmts env n (exitBlock out.layout name inv.results).body) s
      = some (.ok flow, s')) : flow = .next ∧ InUse d [] s' := by
  obtain ⟨a, V, hfound, hheader, htwo, hV, hwords⟩ := h
  obtain ⟨hheight, -, -⟩ := between_eq_append hwords htwo (hfound.size_own ▸ hV)
  rw [hvalues, List.length_singleton] at hheight
  subst hheight
  obtain ⟨rfl, hfound'⟩ := (exitBlock_leads hplaced name hV
    (by rw [← Nat.add_assoc]; exact hheader) fun _ _ _ => rfl).alone hfound hrun
  have huse := hfound'.inUse (Nat.le_refl 2) hplaced.bounds.1
  rw [between_self] at huse
  exact ⟨rfl, huse⟩

/-- The function with the number on top makes a turn of the words in use, if it comes to its end. -/
theorem Piled.turn (hpiled : Piled frames out inv ws) (hlinked : Linked p frames out)
    (hplaced : Placed out d env) (hexit : IsExit out inv.exit inv.results) {id : BlockId}
    {f : Shader.Function} (hid : ws.getLast? = some id.val) (hruns : Runs out id f) :
    f.Lawful DirectSite (fun _ => True) ∧ f.params = [] ∧ ∀ s, InUse d ws s →
      ∀ n flow s', outcome (stmts env n f.body) s = some (.ok flow, s') → flow.Stays
        ∧ (flow = .next → ∃ ws', Turn frames out inv ws ws' ∧ InUse d ws' s') := by
  have hsame {id' : BlockId} {low : List UInt32} (hws : ws = low ++ [id'.val]) : id = id' := by
    rw [hws, List.getLast?_concat] at hid
    exact (congrArg BlockId.mk (Option.some.inj hid)).symm
  cases hpiled with
  | @block fr k b below frame hpile =>
      obtain ⟨payload, -, rfl⟩ := hpile.frame
      obtain rfl := hsame (List.append_assoc ..).symm
      exact hpile.turn hlinked hplaced hruns
  | @exit values hvalues =>
      obtain rfl := hsame rfl
      obtain ⟨name, hruns'⟩ := hexit
      obtain rfl := hruns.unique hlinked hruns'
      refine ⟨exitBlock_lawful trivial trivial _ _ _, rfl, fun s h n flow s' hrun => ?_⟩
      obtain ⟨rfl, h'⟩ := exitBlock_turn hplaced hvalues name h hrun
      exact ⟨nofun, fun _ => ⟨[], .exit hvalues, h'⟩⟩
  | @host func below args hfunc =>
      obtain rfl := hsame (List.append_assoc ..).symm
      rw [hruns.lookup? hlinked] at hfunc
      cases hfunc

end Turns

end WasmShader.Execution
