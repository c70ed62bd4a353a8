import WasmShader.Proofs.SharedFrames

/-!
# Piles of frames

The data words in use, from the bottom to the top: the exit frame, a frame for every call that has
not come back, and on top the frame of the block that is to run, or a request to the host with its
arguments (`Piled`). Nothing on the stack says so. It is implied by the numbers, and by the payloads
that were laid out for the blocks with these numbers.

A turn takes the frame on top and pushes what the terminator of its block says, or, for a return,
fills the room below the number underneath (`Turn`); and the host fills such a room (`Answer`). Either
leaves a pile again (`Turn.piled`, `Answer.piled`).
-/

namespace WasmShader

/-- The data words that the stack pointer counts. -/
def LaneStack.used (s : LaneStack) : List UInt32 :=
  (s.words.extract headerWords (headerWords + s.sp.toNat)).toList

namespace Execution

open Compile Emit

/-- An invocation of an entry point that runs the dispatcher: the number of its exit block, and the
types of its results. -/
structure Invoked where
  exit : BlockId
  results : List ValueType

section Piles

variable (frames : List Frames) (out : Compiled) (inv : Invoked)

/-- The words of the frame of a block: its payload, and its number on top. -/
def IsFrame (fr : Frames) (k : Nat) (ws : List UInt32) : Prop :=
  ∃ payload, payload.length = (fr.payload k).words
    ∧ ws = payload ++ [((out.blockContext fr).numberOf k).val]

/-- The words up to a number whose code awaits results of these types in the room beneath it: the exit
frame, and a frame for every call that has not come back. -/
inductive Suspended : List ValueType → List UInt32 → Prop
  | exit {room : List UInt32} : room.length = out.layout.sizeOf inv.results →
      Suspended inv.results (room ++ [inv.exit.val])
  | call {fr : Frames} {b : Block} {callee : Callee} {sig : Signature} {next : Nat}
      {below frame : List UInt32} : fr ∈ frames → b ∈ fr.machine.blocks →
      b.term.transfer? = some (callee, sig, next) →
      Suspended fr.machine.func.type.results below → IsFrame out fr next frame →
      Suspended sig.results (below ++ frame)

/-- The frame of a block on top of words that await the results of its function. -/
structure OnPile (fr : Frames) (k : Nat) (b : Block) (below frame : List UInt32) : Prop where
  mem : fr ∈ frames
  block : fr.machine.blocks[k]? = some b
  suspended : Suspended frames out inv fr.machine.func.type.results below
  frame : IsFrame out fr k frame

/-- The words in use in front of a turn, or of an answer of the host. -/
inductive Piled : List UInt32 → Prop
  | block {fr : Frames} {k : Nat} {b : Block} {below frame : List UInt32} :
      OnPile frames out inv fr k b below frame → Piled (below ++ frame)
  | exit {values : List UInt32} : values.length = out.layout.sizeOf inv.results →
      Piled (values ++ [inv.exit.val])
  | host {func : HostFunc} {below args : List UInt32} : out.hosts.lookup? func.id = some func →
      Suspended frames out inv func.results below →
      args.length = out.layout.sizeOf func.params → Piled (below ++ (args ++ [func.id.val]))

/-- What a turn makes of the words in use. The words below the frame of the block stay as they are,
except that a return overwrites the room for its results. -/
inductive Turn : List UInt32 → List UInt32 → Prop
  | edge {fr : Frames} {k : Nat} {b : Block} {e : Edge} {below frame pushed : List UInt32} :
      OnPile frames out inv fr k b below frame → e ∈ b.term.edges →
      IsFrame out fr e.target pushed → Turn (below ++ frame) (below ++ pushed)
  | transfer {fr : Frames} {k : Nat} {b : Block} {callee : Callee} {sig : Signature} {next : Nat}
      {below frame kept args : List UInt32} : OnPile frames out inv fr k b below frame →
      b.term.transfer? = some (callee, sig, next) → IsFrame out fr next kept →
      args.length = out.layout.sizeOf sig.params →
      Turn (below ++ frame)
        (below ++ kept ++ (args ++ [((out.blockContext fr).calleeNumber callee).val]))
  | ret {fr : Frames} {k : Nat} {b : Block} {low room values frame : List UInt32} {id : UInt32} :
      OnPile frames out inv fr k b (low ++ room ++ [id]) frame →
      b.term = .ret fr.machine.func.type.results →
      room.length = out.layout.sizeOf fr.machine.func.type.results →
      values.length = out.layout.sizeOf fr.machine.func.type.results →
      Turn (low ++ room ++ [id] ++ frame) (low ++ values ++ [id])
  | exit {values : List UInt32} : values.length = out.layout.sizeOf inv.results →
      Turn (values ++ [inv.exit.val]) []

/-- What an answer of the host makes of the words in use: the request is gone, and the room below is
filled. -/
inductive Answer (func : HostFunc) : List UInt32 → List UInt32 → Prop
  | fill {low room values args : List UInt32} {id : UInt32} :
      out.hosts.lookup? func.id = some func →
      Suspended frames out inv func.results (low ++ room ++ [id]) →
      room.length = out.layout.sizeOf func.results → values.length = out.layout.sizeOf func.results →
      args.length = out.layout.sizeOf func.params →
      Answer func (low ++ room ++ [id] ++ (args ++ [func.id.val])) (low ++ values ++ [id])

end Piles

/-! ## Turns and answers leave piles -/

section Kept

variable {p : Program} {frames : List Frames} {out : Compiled} {inv : Invoked}

theorem IsFrame.length {fr : Frames} {k : Nat} {ws : List UInt32} (h : IsFrame out fr k ws) :
    ws.length = (fr.payload k).frameWords := by
  obtain ⟨payload, hpayload, rfl⟩ := h
  rw [List.length_append, hpayload]
  rfl

/-- The frame to come back to has the words of the results at its end. -/
theorem Linked.results_le (hlinked : Linked p frames out) {fr : Frames} (hfr : fr ∈ frames) {b : Block}
    (hb : b ∈ fr.machine.blocks) {callee : Callee} {sig : Signature} {next : Nat}
    (hterm : b.term.transfer? = some (callee, sig, next)) :
    out.layout.sizeOf sig.results ≤ (fr.payload next).words := by
  have hmachine := hlinked.machined fr hfr
  obtain ⟨rest, -, -, hnext⟩ := (hmachine.typed b hb).of_transfer hterm
  have hpl := hmachine.fit.formed.payload_of_entry hnext
  rw [hmachine.fit.layout] at hpl
  obtain ⟨saved, -, htypes⟩ := hpl.types
  rw [hpl.words, htypes, ← List.append_assoc, Layout.sizeOf_append]
  exact Nat.le_add_left _ _

/-- The room for the results is right below the number on top. -/
theorem Suspended.room (hlinked : Linked p frames out) {types : List ValueType} {ws : List UInt32}
    (h : Suspended frames out inv types ws) :
    ∃ low room id, ws = low ++ room ++ [id] ∧ room.length = out.layout.sizeOf types := by
  cases h with
  | exit hroom => exact ⟨[], _, _, rfl, hroom⟩
  | @call fr b callee sig next below frame hfr hb hterm _ hframe =>
      obtain ⟨payload, hpayload, rfl⟩ := hframe
      have hle := hlinked.results_le hfr hb hterm
      refine ⟨below ++ payload.take (payload.length - out.layout.sizeOf sig.results),
        payload.drop (payload.length - out.layout.sizeOf sig.results),
        ((out.blockContext fr).numberOf next).val, ?_, ?_⟩
      · rw [List.append_assoc below, List.take_append_drop, List.append_assoc]
      · rw [List.length_drop]
        omega

/-- Once its results are there, the code with the number on top can run. -/
theorem Suspended.filled (hlinked : Linked p frames out) {types : List ValueType}
    {low room values : List UInt32} {id : UInt32}
    (h : Suspended frames out inv types (low ++ room ++ [id]))
    (hroom : room.length = out.layout.sizeOf types) (hvalues : values.length = out.layout.sizeOf types) :
    Piled frames out inv (low ++ values ++ [id]) := by
  generalize hws : low ++ room ++ [id] = ws at h
  cases h with
  | @exit room' hroom' =>
      obtain ⟨hlow, hid⟩ := List.append_inj' hws rfl
      obtain rfl : id = inv.exit.val := List.head_eq_of_cons_eq hid
      obtain rfl : low = [] := by
        have hlen := congrArg List.length hlow
        rw [List.length_append] at hlen
        exact List.eq_nil_of_length_eq_zero (by omega)
      exact .exit hvalues
  | @call fr b callee sig next below frame hfr hb hterm hbelow hframe =>
      obtain ⟨payload, hpayload, rfl⟩ := hframe
      rw [← List.append_assoc] at hws
      obtain ⟨hlow, hid⟩ := List.append_inj' hws rfl
      obtain rfl : id = ((out.blockContext fr).numberOf next).val := List.head_eq_of_cons_eq hid
      have hle := hlinked.results_le hfr hb hterm
      -- the room is the end of the payload
      obtain ⟨saved, rfl, rfl⟩ : ∃ saved, low = below ++ saved ∧ payload = saved ++ room := by
        have hsplit : low ++ room = (below ++ payload.take (payload.length - room.length))
            ++ payload.drop (payload.length - room.length) := by
          rw [hlow, List.append_assoc, List.take_append_drop]
        obtain ⟨hlow', hroom'⟩ := List.append_inj' hsplit (by rw [List.length_drop]; omega)
        exact ⟨_, hlow', by rw [hroom', List.length_drop, Nat.sub_sub_self (by omega),
          List.take_append_drop]⟩
      obtain ⟨rest, -, -, hnext⟩ := ((hlinked.machined fr hfr).typed b hb).of_transfer hterm
      obtain ⟨b', hb', -⟩ := Option.map_eq_some_iff.mp hnext
      have hpile : Piled frames out inv
          (below ++ (saved ++ values ++ [((out.blockContext fr).numberOf next).val])) :=
        .block ⟨hfr, hb', hbelow, saved ++ values, by
          rw [List.length_append] at hpayload ⊢
          omega, rfl⟩
      simpa only [List.append_assoc] using hpile

/-- The number that a call pushes last is that of the first block of the callee. -/
theorem Linked.called (hlinked : Linked p frames out) {fr : Frames} (hfr : fr ∈ frames) {b : Block}
    (hb : b ∈ fr.machine.blocks) {fn : Nat} {sig : Signature} {next : Nat}
    (hterm : b.term.transfer? = some (.func fn, sig, next)) {args : List UInt32}
    (hargs : args.length = out.layout.sizeOf sig.params) :
    ∃ fr' ∈ frames, ∃ b', fr'.machine.blocks[0]? = some b'
      ∧ fr'.machine.func.type.results = sig.results
      ∧ IsFrame out fr' 0 (args ++ [((out.blockContext fr).calleeNumber (.func fn)).val]) := by
  have hcall : b.term = .call fn sig.params sig.results next := by
    generalize b.term = term at hterm
    cases term <;> cases hterm
    rfl
  obtain ⟨fr', hfr', htype, hnumber⟩ := (hlinked.machined fr hfr).calls b hb _ _ _ _ hcall
  obtain ⟨hfirst, hwords⟩ := (hlinked.machined fr' hfr').first
  exact ⟨fr', hfr', _, List.getElem?_eq_getElem hfirst, by rw [htype],
    args, by rw [hargs, hwords, htype], by rw [hnumber]⟩

/-- The number that a request pushes last is that of a host function with this signature. -/
theorem Linked.asked (hlinked : Linked p frames out) {fr : Frames} (hfr : fr ∈ frames) {b : Block}
    (hb : b ∈ fr.machine.blocks) {func : HostFunc} {sig : Signature} {next : Nat}
    (hterm : b.term.transfer? = some (.host func, sig, next)) :
    out.hosts.lookup? func.id = some func ∧ func.params = sig.params ∧ func.results = sig.results := by
  have hcall : b.term = .host func sig.params sig.results next := by
    generalize b.term = term at hterm
    cases term <;> cases hterm
    rfl
  obtain ⟨rest, -, htakes, -⟩ := ((hlinked.machined fr hfr).typed b hb).of_transfer hterm
  exact ⟨(hlinked.machined fr hfr).asks b hb _ _ _ _ hcall, (htakes.host func rfl).2⟩

/-- A turn leaves a pile, or the stack empty behind the exit block. -/
theorem Turn.piled (hlinked : Linked p frames out) {ws ws' : List UInt32}
    (h : Turn frames out inv ws ws') : ws' = [] ∨ Piled frames out inv ws' := by
  cases h with
  | exit => exact .inl rfl
  | edge hpile hedge hframe =>
      refine .inr ?_
      have hb := List.mem_of_getElem? hpile.block
      have htyped := ((hlinked.machined _ hpile.mem).typed _ hb).edge_typed hedge
      obtain ⟨b', hb', -⟩ := Option.map_eq_some_iff.mp htyped.target
      exact .block ⟨hpile.mem, hb', hpile.suspended, hframe⟩
  | @transfer fr k b callee sig next below frame kept args hpile hterm hkept hargs =>
      refine .inr ?_
      have hb := List.mem_of_getElem? hpile.block
      have hnext := Suspended.call hpile.mem hb hterm hpile.suspended hkept
      cases callee with
      | func fn =>
          obtain ⟨fr', hfr', b', hb', hresults, hframe⟩ := hlinked.called hpile.mem hb hterm hargs
          exact .block ⟨hfr', hb', hresults ▸ hnext, hframe⟩
      | host func =>
          obtain ⟨hfunc, hparams, hresults⟩ := hlinked.asked hpile.mem hb hterm
          exact .host hfunc (hresults ▸ hnext) (hparams ▸ hargs)
  | ret hpile _ hroom hvalues => exact .inr (hpile.suspended.filled hlinked hroom hvalues)

theorem Answer.piled (hlinked : Linked p frames out) {func : HostFunc} {ws ws' : List UInt32}
    (h : Answer frames out inv func ws ws') : Piled frames out inv ws' := by
  cases h with
  | fill _ hsuspended hroom hvalues _ => exact hsuspended.filled hlinked hroom hvalues

end Kept

/-! ## Words of a region -/

section Words

variable {a b : Array UInt32} {lo mid hi i n : Nat} {w : UInt32}

/-- The words from one place up to another. -/
def between (a : Array UInt32) (lo hi : Nat) : List UInt32 := (a.extract lo hi).toList

theorem getElem?_between (a : Array UInt32) (lo hi i : Nat) :
    (between a lo hi)[i]? = if lo + i < hi then a[lo + i]? else none := by
  rw [between, Array.toList_extract, List.extract_eq_take_drop, List.getElem?_take,
    List.getElem?_drop, Array.getElem?_toList]
  exact ite_congr (propext (by omega)) (fun _ => rfl) fun _ => rfl

theorem between_congr (h : ∀ i, lo ≤ i → i < hi → b[i]? = a[i]?) : between b lo hi = between a lo hi := by
  refine List.ext_getElem? fun i => ?_
  rw [getElem?_between, getElem?_between]
  split
  · next hi' => exact h _ (Nat.le_add_right _ _) hi'
  · rfl

theorem length_between (h : hi ≤ a.size) : (between a lo hi).length = hi - lo := by
  rw [between, Array.length_toList, Array.size_extract, Nat.min_eq_left h]

theorem between_append (h : lo ≤ mid) (h' : mid ≤ hi) :
    between a lo mid ++ between a mid hi = between a lo hi := by
  rw [between, between, ← Array.toList_append, Array.extract_append_extract, Nat.min_eq_left h,
    Nat.max_eq_right h']
  rfl

theorem between_self (a : Array UInt32) (lo : Nat) : between a lo lo = [] := by
  simp [between]

theorem between_singleton (h : a[i]? = some w) : between a i (i + 1) = [w] := by
  refine List.ext_getElem? fun j => ?_
  rw [getElem?_between]
  cases j with
  | zero => rw [if_pos (by omega), Nat.add_zero, h]; rfl
  | succ j => rw [if_neg (by omega)]; rfl

/-- Words in two parts are in two parts where they stand. -/
theorem between_eq_append {xs ys : List UInt32} (h : between a lo hi = xs ++ ys) (hlo : lo ≤ hi)
    (hhi : hi ≤ a.size) : lo + xs.length + ys.length = hi ∧ between a lo (lo + xs.length) = xs
      ∧ between a (lo + xs.length) hi = ys := by
  have hlen := congrArg List.length h
  rw [length_between hhi, List.length_append] at hlen
  rw [← between_append (Nat.le_add_right lo xs.length) (show lo + xs.length ≤ hi by omega)] at h
  obtain ⟨hxs, hys⟩ := List.append_inj h (by rw [length_between (by omega)]; omega)
  exact ⟨by omega, hxs, hys⟩

end Words

/-! ## Turns of the code -/

section Turns

variable {p : Program} {frames : List Frames} {out : Compiled} {inv : Invoked} {a b a' b' : Array UInt32}
  {fr : Frames} {H V : Nat}

theorem isFrame_between {k : Nat} (hfits : H + (fr.payload k).frameWords ≤ a.size)
    (hnumber : a[H + (fr.payload k).words]? = some ((out.blockContext fr).numberOf k).val) :
    IsFrame out fr k (between a H (H + (fr.payload k).frameWords)) := by
  rw [Payload.frameWords] at hfits ⊢
  refine ⟨between a H (H + (fr.payload k).words), by rw [length_between (by omega)]; omega, ?_⟩
  rw [← between_singleton hnumber, between_append (by omega) (by omega), Nat.add_assoc]

/-- The code of a return fills the room below the number underneath. -/
theorem turn_of_ret (hlinked : Linked p frames out) {k : Nat} {block : Block} {frame : List UInt32}
    {room : Nat} (hH : 2 ≤ H) (hpile : OnPile frames out inv fr k block (between a 2 H) frame)
    (hterm : block.term = .ret fr.machine.func.type.results)
    (hroom : room + out.layout.sizeOf fr.machine.func.type.results + 1 = H) (hsize : H ≤ a.size)
    (hsize' : H ≤ a'.size)
    (hkept : ∀ i, i < room ∨ room + out.layout.sizeOf fr.machine.func.type.results ≤ i → a'[i]? = a[i]?) :
    Turn frames out inv (between a 2 H ++ frame) (between a' 2 H) := by
  obtain ⟨low, words, id, hwords, hlen⟩ := hpile.suspended.room hlinked
  obtain ⟨hheight, hlow, hid⟩ := between_eq_append hwords hH hsize
  rw [List.length_append] at hheight hlow hid
  rw [List.length_singleton] at hheight
  generalize hR : out.layout.sizeOf fr.machine.func.type.results = R at hroom hkept hlen
  obtain rfl : room = 2 + low.length := by omega
  obtain ⟨-, hlow', hroom'⟩ := between_eq_append hlow (by omega) (by omega)
  have hvalues : between a' 2 H = low ++ between a' (2 + low.length) (2 + low.length + R) ++ [id] := by
    have hlowKept : between a' 2 (2 + low.length) = low :=
      (between_congr fun i _ hi => hkept i (.inl hi)).trans hlow'
    have hidKept : between a' (2 + low.length + R) H = [id] := by
      rw [between_congr fun i hi _ => hkept i (.inr hi), ← hid, hlen, Nat.add_assoc]
    calc between a' 2 H
        = between a' 2 (2 + low.length) ++ between a' (2 + low.length) (2 + low.length + R)
          ++ between a' (2 + low.length + R) H := by
            rw [between_append (by omega) (by omega), between_append (by omega) (by omega)]
      _ = low ++ between a' (2 + low.length) (2 + low.length + R) ++ [id] := by
            rw [hlowKept, hidKept]
  rw [hvalues, hwords]
  rw [hwords] at hpile
  exact .ret hpile hterm (hlen.trans hR.symm)
    ((length_between (by omega)).trans (by omega))

/-- What the code of a terminator does to the stack is a turn. -/
theorem Exits.turn (hlinked : Linked p frames out) {k : Nat} {block : Block} {frame : List UInt32}
    (hH : 2 ≤ H) (hpile : OnPile frames out inv fr k block (between a 2 H) frame) (hsize : H ≤ a.size)
    (h : Exits (out.blockContext fr) H a b block.term V a' b') (hV : V ≤ a'.size) :
    Turn frames out inv (between a 2 H ++ frame) (between a' 2 V) := by
  have hkept (hbelow : Below H a b a' b') : between a' 2 H = between a 2 H :=
    between_congr fun i _ hi => (hbelow i hi).1
  have htyped := (hlinked.machined fr hpile.mem).typed block (List.mem_of_getElem? hpile.block)
  generalize hterm : block.term = term at h htyped
  cases h with
  | @edge e types _ _ hedge _ hbelow _ hnumber =>
      have hwords : between a' 2 (H + (fr.payload e.target).frameWords)
          = between a 2 H ++ between a' H (H + (fr.payload e.target).frameWords) := by
        rw [← hkept hbelow, between_append hH (Nat.le_add_right H _)]
      exact hwords ▸ .edge hpile (hterm ▸ hedge) (isFrame_between hV hnumber)
  | @transfer callee sig next m rest _ _ htransfer _ _ hbelow _ _ hnumber hcallee =>
      have hnext : H ≤ H + (fr.payload next).frameWords := Nat.le_add_right H _
      change a'[H + (fr.payload next).frameWords + out.layout.sizeOf sig.params]? = _ at hcallee
      change H + (fr.payload next).frameWords + out.layout.sizeOf sig.params + 1 ≤ a'.size at hV
      have hkeptFrame : IsFrame out fr next (between a' H (H + (fr.payload next).frameWords)) :=
        isFrame_between (by omega) hnumber
      change Turn frames out inv _
        (between a' 2 (H + (fr.payload next).frameWords + out.layout.sizeOf sig.params + 1))
      generalize H + (fr.payload next).frameWords = top at hnext hkeptFrame hcallee hV ⊢
      have hwords : between a' 2 (top + out.layout.sizeOf sig.params + 1)
          = between a 2 H ++ between a' H top ++ (between a' top (top + out.layout.sizeOf sig.params)
            ++ [((out.blockContext fr).calleeNumber callee).val]) := by
        rw [← hkept hbelow, ← between_singleton hcallee, between_append hH hnext,
          between_append (by omega) (by omega), between_append (by omega) (by omega)]
      rw [hwords]
      exact .transfer hpile (hterm ▸ htransfer) hkeptFrame (by rw [length_between (by omega)]; omega)
  | @ret results room _ _ hret hroom hkept' hshare =>
      have hresults : results = fr.machine.func.type.results := by
        rw [hret] at htyped
        generalize block.stack = stack at htyped
        cases htyped
        rfl
      subst hresults
      exact turn_of_ret hlinked hH hpile (hterm.trans hret) hroom hsize hV fun i hi => (hkept' i hi).1

end Turns

end Execution

end WasmShader
