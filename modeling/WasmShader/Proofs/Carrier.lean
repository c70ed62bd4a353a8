import Mathlib
import WasmShader.Execution.Eval

/-!
# Shader values that carry values

A shader value carries a value of a WebAssembly type if it has the carrier of that type
and nothing in the words that the type does not use. Such a value is determined by the
words it has in memory, so writing it to a buffer and reading it back gives it again.
-/

namespace WasmShader

namespace Layout

theorem length_encode (l : Layout) (v : Value) : (l.encode v).length = l.words v.type := by
  unfold encode words
  cases v.type with
  | f64 =>
      dsimp only
      split
      · rfl
      · rfl
  | _ => rfl

theorem words_le_four (l : Layout) (t : ValueType) : l.words t ≤ 4 := by
  cases t with
  | f64 =>
      rw [words]
      split
      · decide
      · decide
  | _ => simp [words]

theorem words_carrier (l : Layout) {t : ValueType} (ht : t.isKnown = true) :
    (Shader.Ty.carrier l t).words = l.words t := by
  cases t with
  | reserved _ => cases ht
  | f64 =>
      rw [Shader.Ty.carrier, words]
      split
      · rfl
      · rfl
  | _ => rfl

/-- Only the words of the type count. -/
theorem decode_take (l : Layout) (t : ValueType) (ws : List UInt32) :
    l.decode t (ws.take (l.words t)) = l.decode t ws := by
  have hget {n i : Nat} (hi : i < n) : (ws.take n).getD i 0 = ws.getD i 0 := by
    rw [List.getD_eq_getElem?_getD, List.getD_eq_getElem?_getD, List.getElem?_take_of_lt hi]
  unfold decode words
  cases t with
  | reserved _ => rfl
  | i32 => simp only [hget Nat.zero_lt_one]
  | f32 => simp only [hget Nat.zero_lt_one]
  | i64 => simp only [hget Nat.zero_lt_two, hget Nat.one_lt_two]
  | f64 =>
      dsimp only
      split
      · simp only [hget Nat.zero_lt_two, hget Nat.one_lt_two]
      · simp only [hget (n := 3) (i := 0) (by decide), hget (n := 3) (i := 1) (by decide),
          hget (n := 3) (i := 2) (by decide)]
  | v128 =>
      simp only [hget (n := 4) (i := 0) (by decide), hget (n := 4) (i := 1) (by decide),
        hget (n := 4) (i := 2) (by decide), hget (n := 4) (i := 3) (by decide)]

theorem type_decode (l : Layout) (t : ValueType) (ws : List UInt32) : (l.decode t ws).type = t := by
  unfold decode
  cases t with
  | f64 =>
      dsimp only
      split
      · rfl
      · rfl
  | _ => rfl

@[simp] theorem sizeOf_nil (l : Layout) : l.sizeOf [] = 0 := rfl

@[simp] theorem sizeOf_cons (l : Layout) (t : ValueType) (ts : List ValueType) :
    l.sizeOf (t :: ts) = l.words t + l.sizeOf ts := rfl

@[simp] theorem sizeOf_append (l : Layout) (ts us : List ValueType) :
    l.sizeOf (ts ++ us) = l.sizeOf ts + l.sizeOf us := by
  induction ts with
  | nil => simp
  | cons t ts ih => rw [List.cons_append, sizeOf_cons, sizeOf_cons, ih, Nat.add_assoc]

theorem requireKnown_eq_ok {types : List ValueType} (h : ∀ t ∈ types, t.isKnown = true) :
    requireKnown types = .ok () := by
  have hnone : types.find? (!·.isKnown) = none := by
    rw [List.find?_eq_none]
    intro t ht
    rw [h t ht]
    decide
  rw [requireKnown, hnone]

theorem size_eq_ok {types : List ValueType} (l : Layout) (h : ∀ t ∈ types, t.isKnown = true) :
    l.size types = .ok (l.sizeOf types) := by
  rw [size, requireKnown_eq_ok h]
  rfl

theorem offsets_eq_ok {types : List ValueType} (l : Layout) (h : ∀ t ∈ types, t.isKnown = true) :
    l.offsets types = .ok (l.offsetsFrom 0 types, l.sizeOf types) := by
  rw [offsets, requireKnown_eq_ok h]
  rfl

end Layout

namespace Execution

open Shader

namespace Datum

/-- The words that a value of a type has in memory. -/
def stored (l : Layout) (t : ValueType) (d : Datum) : List UInt32 := d.words.take (l.words t)

/-- The value carries one of a type. -/
def Fits (l : Layout) (t : ValueType) (d : Datum) : Prop :=
  ofWords (Ty.carrier l t) (d.stored l t) = d

theorem length_stored (l : Layout) (t : ValueType) (d : Datum) :
    (d.stored l t).length = l.words t := by
  rw [stored, List.length_take]
  exact Nat.min_eq_left (l.words_le_four t)

theorem take_words_ofWords {ty : Ty} {ws : List UInt32} {n : Nat} (hlen : ws.length = n)
    (hn : n ≤ 4) : (ofWords ty ws).words.take n = ws := by
  subst hlen
  match ws, hn with
  | [], _ => rfl
  | [_], _ => rfl
  | [_, _], _ => rfl
  | [_, _, _], _ => rfl
  | [_, _, _, _], _ => rfl
  | _ :: _ :: _ :: _ :: _ :: _, h => simp only [List.length_cons] at h; omega

/-- The words that a value was made of are the ones it has in memory. -/
theorem stored_ofWords {l : Layout} {t : ValueType} {ty : Ty} {ws : List UInt32}
    (hlen : ws.length = l.words t) : (ofWords ty ws).stored l t = ws :=
  take_words_ofWords hlen (l.words_le_four t)

theorem fits_ofWords {l : Layout} {t : ValueType} {ws : List UInt32}
    (hlen : ws.length = l.words t) : Fits l t (ofWords (Ty.carrier l t) ws) := by
  rw [Fits, stored_ofWords hlen]

theorem Fits.type_eq {l : Layout} {t : ValueType} {d : Datum} (h : Fits l t d) :
    d.type = Ty.carrier l t := by
  rw [← h]; rfl

theorem fits_ofValue (l : Layout) (v : Value) : Fits l v.type (ofValue l v) :=
  fits_ofWords (l.length_encode v)

theorem stored_ofValue (l : Layout) (v : Value) : (ofValue l v).stored l v.type = l.encode v :=
  stored_ofWords (l.length_encode v)

theorem toValue_eq (l : Layout) (t : ValueType) (d : Datum) :
    d.toValue l t = l.decode t (d.stored l t) := (l.decode_take t d.words).symm

theorem type_toValue (l : Layout) (t : ValueType) (d : Datum) : (d.toValue l t).type = t :=
  l.type_decode t d.words

theorem fits_zero (l : Layout) (t : ValueType) : Fits l t (zero (Ty.carrier l t)) := by
  rw [Fits, stored]
  have hz : (zero (Ty.carrier l t)).words = [0, 0, 0, 0] := rfl
  rw [hz]
  have hw := l.words_le_four t
  generalize l.words t = n at hw
  match n, hw with
  | 0, _ | 1, _ | 2, _ | 3, _ | 4, _ => rfl

end Datum

/-- Every value carries one of the type at its place. -/
abbrev FitsAll (l : Layout) (ts : List ValueType) (ds : List Datum) : Prop :=
  List.Forall₂ (Datum.Fits l) ts ds

/-- The words that values of given types have in memory, one after the other. -/
def storedAll (l : Layout) (ts : List ValueType) (ds : List Datum) : List UInt32 :=
  (List.zipWith (Datum.stored l) ts ds).flatten

namespace FitsAll

variable {l : Layout} {ts us : List ValueType} {ds es : List Datum}

theorem append (h : FitsAll l ts ds) (h' : FitsAll l us es) : FitsAll l (ts ++ us) (ds ++ es) :=
  List.rel_append h h'

/-- What fits two lists of types in a row is two lists in a row. -/
theorem of_append (h : FitsAll l (ts ++ us) ds) :
    ∃ as bs, ds = as ++ bs ∧ FitsAll l ts as ∧ FitsAll l us bs := by
  induction ts generalizing ds with
  | nil => exact ⟨[], ds, rfl, .nil, h⟩
  | cons t ts ih =>
      cases h with
      | cons hd htail =>
          obtain ⟨as, bs, rfl, has, hbs⟩ := ih htail
          exact ⟨_ :: as, bs, rfl, .cons hd has, hbs⟩

theorem of_single {t : ValueType} (h : FitsAll l [t] ds) : ∃ d, ds = [d] ∧ Datum.Fits l t d := by
  cases h with
  | cons hd htail =>
      cases htail with
      | nil => exact ⟨_, rfl, hd⟩

theorem single {t : ValueType} {d : Datum} (h : Datum.Fits l t d) : FitsAll l [t] [d] :=
  .cons h .nil

theorem getElem? (h : FitsAll l ts ds) {i : Nat} {t : ValueType} (ht : ts[i]? = some t) :
    ∃ d, ds[i]? = some d ∧ Datum.Fits l t d := by
  induction h generalizing i with
  | nil => cases ht
  | cons hd _ ih =>
      cases i with
      | zero => cases ht; exact ⟨_, rfl, hd⟩
      | succ i => exact ih ht

theorem set (h : FitsAll l ts ds) {i : Nat} {t : ValueType} {d : Datum} (ht : ts[i]? = some t)
    (hd : Datum.Fits l t d) : FitsAll l ts (ds.set i d) := by
  induction h generalizing i with
  | nil => cases ht
  | cons hd' htail ih =>
      cases i with
      | zero => cases ht; exact .cons hd htail
      | succ i => exact .cons hd' (ih ht)

theorem zeros (l : Layout) (ts : List ValueType) :
    FitsAll l ts (ts.map fun t => Datum.zero (Ty.carrier l t)) := by
  induction ts with
  | nil => exact .nil
  | cons t ts ih => exact .cons (Datum.fits_zero l t) ih

end FitsAll

theorem length_storedAll {l : Layout} {ts : List ValueType} {ds : List Datum}
    (h : ts.length = ds.length) : (storedAll l ts ds).length = l.sizeOf ts := by
  induction ts generalizing ds with
  | nil => rfl
  | cons t ts ih =>
      cases ds with
      | nil => cases h
      | cons d ds =>
          rw [storedAll, List.zipWith_cons_cons, List.flatten_cons, List.length_append,
            Datum.length_stored, Layout.sizeOf_cons]
          congr 1
          exact ih (Nat.succ.inj h)

theorem storedAll_cons (l : Layout) (t : ValueType) (ts : List ValueType) (d : Datum)
    (ds : List Datum) : storedAll l (t :: ts) (d :: ds) = d.stored l t ++ storedAll l ts ds := by
  rw [storedAll, List.zipWith_cons_cons, List.flatten_cons]; rfl

theorem storedAll_append {l : Layout} {ts us : List ValueType} {ds es : List Datum}
    (h : ts.length = ds.length) :
    storedAll l (ts ++ us) (ds ++ es) = storedAll l ts ds ++ storedAll l us es := by
  rw [storedAll, List.zipWith_append h, List.flatten_append]; rfl

end Execution

end WasmShader
