import WasmShader.Proofs.EvalTyping
import WasmShader.Proofs.WordCode

/-!
# Globals in the words of a lane

The mutable globals stand one after the other in a lane's globals, each at the offset that
the layout says; immutable ones take no room.
-/

namespace WasmShader

open Execution

/-- The words of the mutable ones among globals with given values. -/
def wordsOfGlobals (l : Layout) (globals : List Global) (values : List Datum) : List UInt32 :=
  (List.zipWith (fun (g : Global) d => if g.isMutable then Datum.stored l g.type d else [])
    globals values).flatten

/-- The words that a lane has for the globals of a program. -/
def Program.globalWords (p : Program) (l : Layout) (values : List Datum) : List UInt32 :=
  wordsOfGlobals l p.globals values

theorem wordsOfGlobals_cons (l : Layout) (g : Global) (gs : List Global) (d : Datum)
    (ds : List Datum) :
    wordsOfGlobals l (g :: gs) (d :: ds)
      = (if g.isMutable then d.stored l g.type else []) ++ wordsOfGlobals l gs ds := by
  rw [wordsOfGlobals, List.zipWith_cons_cons, List.flatten_cons]; rfl

theorem length_wordsOfGlobals {l : Layout} {globals : List Global} {values : List Datum}
    (h : globals.length = values.length) :
    (wordsOfGlobals l globals values).length
      = l.sizeOf ((globals.filter (·.isMutable)).map (·.type)) := by
  induction globals generalizing values with
  | nil => rfl
  | cons g gs ih =>
      cases values with
      | nil => cases h
      | cons d ds =>
          have hrest := ih (Nat.succ.inj h)
          rw [wordsOfGlobals_cons, List.length_append, hrest]
          cases hm : g.isMutable with
          | true => simp [hm, Datum.length_stored]
          | false => simp [hm]

namespace Emit.GlobalLayout

theorem offsetsFrom_of_immutable {l : Layout} {next i : Nat} {globals : List Global} {g : Global}
    (hg : globals[i]? = some g) (hm : g.isMutable = false) :
    (offsetsFrom l next globals)[i]? = some none := by
  induction globals generalizing next i with
  | nil => cases hg
  | cons g' gs ih =>
      rw [offsetsFrom]
      cases i with
      | zero => cases hg; rw [hm]; rfl
      | succ i =>
          split
          · exact ih hg
          · exact ih hg

/-- A mutable global has a place, and stands there between the words of the others. -/
theorem offsetsFrom_of_mutable {l : Layout} (next : Nat) {i : Nat} {globals : List Global}
    (values : List Datum) {g : Global} {d : Datum} (hg : globals[i]? = some g)
    (hm : g.isMutable = true) (hd : values[i]? = some d) :
    ∃ front back, (offsetsFrom l next globals)[i]? = some (some (next + front.length))
      ∧ wordsOfGlobals l globals values = front ++ d.stored l g.type ++ back
      ∧ ∀ d', wordsOfGlobals l globals (values.set i d')
        = front ++ Datum.stored l g.type d' ++ back := by
  induction globals generalizing next i values with
  | nil => cases hg
  | cons g' gs ih =>
      cases values with
      | nil => cases hd
      | cons v vs =>
          rw [offsetsFrom]
          cases i with
          | zero =>
              cases hg
              cases hd
              refine ⟨[], wordsOfGlobals l gs vs, ?_, ?_, fun d' => ?_⟩
              · rw [if_pos hm]; rfl
              · rw [wordsOfGlobals_cons, if_pos hm]; rfl
              · rw [List.set_cons_zero, wordsOfGlobals_cons, if_pos hm]; rfl
          | succ i =>
              by_cases hm' : g'.isMutable = true
              · obtain ⟨front, back, hoff, hwords, hset⟩ :=
                  ih (next + l.words g'.type) vs hg hd
                refine ⟨Datum.stored l g'.type v ++ front, back, ?_, ?_, fun d' => ?_⟩
                · rw [if_pos hm', List.getElem?_cons_succ, hoff, List.length_append,
                    Datum.length_stored, Nat.add_assoc]
                · rw [wordsOfGlobals_cons, if_pos hm', hwords]; simp only [List.append_assoc]
                · rw [List.set_cons_succ, wordsOfGlobals_cons, if_pos hm', hset]
                  simp only [List.append_assoc]
              · obtain ⟨front, back, hoff, hwords, hset⟩ := ih next vs hg hd
                refine ⟨front, back, ?_, ?_, fun d' => ?_⟩
                · rw [if_neg hm', List.getElem?_cons_succ, hoff]
                · rw [wordsOfGlobals_cons, if_neg hm', hwords]; rfl
                · rw [List.set_cons_succ, wordsOfGlobals_cons, if_neg hm', hset]; rfl

end Emit.GlobalLayout

end WasmShader
