import WasmShader.Proofs.FramePassing

/-!
# Answers to pending requests

What `HostTable.complete` does to the stack of a lane whose request `HostTable.pending` has
read. Results of the wrong number or types are refused, and the stack stays as it is. Results
that fit the request are written into the room below the block number that is on top once the
request is gone, and no other word of the region changes but the stack pointer.

Where there is no such room, or where a result type has no representation, the answer is
refused as well, but the request has been taken off the stack by then.
-/

namespace WasmShader

theorem Layout.allKnown_of_requireKnown {types : List ValueType}
    (h : requireKnown types = .ok ()) : AllKnown types := by
  unfold requireKnown at h
  split at h
  · cases h
  · next hnone =>
    intro t ht
    have hknown := List.find?_eq_none.mp hnone t ht
    simpa using hknown

namespace HostTable

/-! ## The region behind a request -/

/-- The stack of a lane with a pending request: the words of the request are on top. -/
structure Asks (t : HostTable) (s : LaneStack) (func : HostFunc) (trap : UInt32)
    (used call above : List UInt32) : Prop where
  params : AllKnown func.params
  call_length : call.length = t.argWords func + 1
  holds : s.Holds trap (used ++ call) above
  small : (used ++ call).length < 2 ^ 32

/-- A region whose stack pointer is within it. -/
theorem exists_holds {s : LaneStack} (h : LaneStack.headerWords + s.sp.toNat ≤ s.words.size) :
    ∃ trap used above, used.length = s.sp.toNat ∧ s.Holds trap used above := by
  rw [← Array.length_toList] at h
  obtain ⟨sp, trap, data, hwords⟩ : ∃ sp trap data, s.words.toList = sp :: trap :: data := by
    rw [LaneStack.headerWords] at h
    generalize s.words.toList = words at h
    cases words with
    | nil => rw [List.length_nil] at h; omega
    | cons sp rest =>
        cases rest with
        | nil => rw [List.length_singleton] at h; omega
        | cons trap data => exact ⟨sp, trap, data, rfl⟩
  have hsp : s.sp = sp := by
    rw [LaneStack.sp, Array.getD_eq_getD_getElem?, ← Array.getElem?_toList, hwords]
    rfl
  rw [hwords, LaneStack.headerWords, List.length_cons, List.length_cons] at h
  have hlen : (data.take s.sp.toNat).length = s.sp.toNat := by
    rw [List.length_take]
    omega
  refine ⟨trap, data.take s.sp.toNat, data.drop s.sp.toNat, hlen, ?_⟩
  rw [LaneStack.Holds, List.take_append_drop, hlen, hwords, hsp]
  congr 1
  exact UInt32.toNat_inj.mp (Execution.toNat_toUInt32 sp.toNat_lt).symm

theorem asks_of_pending {t : HostTable} {s : LaneStack} {p : Pending}
    (h : t.pending s = .ok (some p)) :
    ∃ trap used call above, t.Asks s p.func trap used call above := by
  unfold pending at h
  dsimp only at h
  split at h
  · cases h
  · next hsp =>
    obtain ⟨id, htop, h⟩ := Program.bind_eq_ok h
    split at h
    · cases h
    · next func hfunc =>
      obtain ⟨_, hknown, h⟩ := Program.bind_eq_ok h
      split at h
      · cases h
      · next hroom =>
        obtain ⟨ws, -, h⟩ := Program.bind_eq_ok h
        obtain ⟨args, -, h⟩ := Program.bind_eq_ok h
        cases h
        have hsize : LaneStack.headerWords + s.sp.toNat ≤ s.words.size := by
          unfold LaneStack.top at htop
          split at htop
          · next w hw =>
            have hlt := (Array.getElem?_eq_some_iff.mp hw).1
            omega
          · cases htop
        obtain ⟨trap, data, above, hlen, hholds⟩ := exists_holds hsize
        refine ⟨trap, data.take (s.sp.toNat - (t.argWords func + 1)),
          data.drop (s.sp.toNat - (t.argWords func + 1)), above,
          Layout.allKnown_of_requireKnown hknown, ?_, ?_, ?_⟩
        · change _ = t.argWords func + 1
          rw [List.length_drop]
          omega
        · rwa [List.take_append_drop]
        · rw [List.take_append_drop, hlen]; exact s.sp.toNat_lt

/-! ## Results that are refused -/

theorem map_type_of_wrongType {types : List ValueType} {values : List Value}
    (hlen : values.length = types.length) (h : wrongType? types values = none) :
    values.map (·.type) = types := by
  induction types generalizing values with
  | nil => rw [List.length_eq_zero_iff.mp hlen]; rfl
  | cons t types ih =>
      cases values with
      | nil => cases hlen
      | cons v values =>
          rw [wrongType?] at h
          split at h
          · next htype => rw [List.map_cons, htype, ih (Nat.succ.inj hlen) h]
          · cases h

/-- Results pass the check iff they have the declared types. -/
theorem checkResults_eq_ok_iff {func : HostFunc} {results : List Value} :
    checkResults func results = .ok () ↔ results.map (·.type) = func.results := by
  unfold checkResults
  constructor
  · intro h
    split at h
    · cases h
    · next hlen =>
      split at h
      · cases h
      · next hnone => exact map_type_of_wrongType (by omega) hnone
  · intro h
    rw [wrongType?_eq_none h, ← h, List.length_map, if_neg (fun hne => hne rfl)]

section Answer

variable {t : HostTable} {s : LaneStack} {p : Pending} {trap : UInt32}
  {used call above : List UInt32} {results : List Value}

theorem length_encode_of_types (h : results.map (·.type) = p.func.results) :
    (results.flatMap t.layout.encode).length = t.resultWords p.func := by
  rw [← storedAll_ofValue, Execution.length_storedAll (by simp), h]
  rfl

/-- An answer that is refused although its results have the declared types: the request is
off the stack, and nothing is written. -/
theorem complete_late (hs : t.Asks s p.func trap used call above)
    (htypes : results.map (·.type) = p.func.results)
    (hroom : ¬(AllKnown p.func.results ∧ t.resultWords p.func + 1 ≤ used.length)) :
    ∃ e s', t.complete p results s = (.error e, s') ∧ s'.Holds trap used (call ++ above) := by
  obtain ⟨ws, s', hpop, hs'⟩ := hs.holds.pop hs.small
  have hsmall := hs.small
  rw [List.length_append] at hsmall
  unfold complete
  rw [checkResults_eq_ok_iff.mpr htypes, Layout.requireKnown_eq_ok hs.params]
  dsimp only
  rw [← hs.call_length, hpop]
  dsimp only
  cases hencode : t.layout.encodeAll results with
  | error e => exact ⟨e, s', rfl, hs'⟩
  | ok words =>
      obtain ⟨_, hknown, hwords⟩ := Program.bind_eq_ok hencode
      cases hwords
      have hshort : used.length < t.resultWords p.func + 1 := by
        rw [htypes] at hknown
        have := Layout.allKnown_of_requireKnown hknown
        exact Nat.lt_of_not_le fun hle => hroom ⟨this, hle⟩
      dsimp only
      rw [hs'.sp, Execution.toNat_toUInt32 (by omega), length_encode_of_types htypes,
        if_pos hshort]
      exact ⟨_, s', rfl, hs'⟩

/-- An answer that is accepted: the request is off the stack, and the results are in the room
below the block number that is then on top. -/
theorem complete_in_room (hs : t.Asks s p.func trap used call above)
    (htypes : results.map (·.type) = p.func.results) (hknown : AllKnown p.func.results)
    (hroom : t.resultWords p.func + 1 ≤ used.length) :
    ∃ low room id s', used = low ++ room ++ [id] ∧ room.length = t.resultWords p.func
      ∧ t.complete p results s = (.ok (), s')
      ∧ s'.Holds trap (low ++ results.flatMap t.layout.encode ++ [id]) (call ++ above) := by
  have hne : used ≠ [] := by rintro rfl; simp at hroom
  have hlast := List.dropLast_append_getLast hne
  have hlen : used.dropLast.length = used.length - 1 := List.length_dropLast
  have hcut := List.take_append_drop (used.dropLast.length - t.resultWords p.func) used.dropLast
  have hdrop : (used.dropLast.drop (used.dropLast.length - t.resultWords p.func)).length
      = t.resultWords p.func := by
    rw [List.length_drop]
    omega
  rw [← hcut] at hlast
  have hholds := hs.holds
  have hsmall := hs.small
  rw [← hlast] at hholds hsmall
  obtain ⟨s', hrun, hs'⟩ :=
    complete_writes p htypes hs.params hknown hdrop hs.call_length hholds hsmall
  rw [← htypes, storedAll_ofValue] at hs'
  exact ⟨_, _, _, s', hlast.symm, hdrop, hrun, hs'⟩

/-- A table with one host function, which gives a word. -/
def oneWord : HostTable where
  layout := {}
  funcs := [⟨.host 0, .importCall 0, "env.f", [], [.i32]⟩]

/-- What an answer to a pending request does: results of other types are refused and change
nothing; results that the request has room for are written there; else the answer is refused
when the request is already off the stack. -/
theorem complete_effect (hp : t.pending s = .ok (some p)) :
    ∃ trap used call above, t.Asks s p.func trap used call above ∧ ∀ results,
      (results.map (·.type) ≠ p.func.results →
        ∃ e, t.complete p results s = (.error e, s))
      ∧ (results.map (·.type) = p.func.results → AllKnown p.func.results →
        t.resultWords p.func + 1 ≤ used.length →
        ∃ low room id s', used = low ++ room ++ [id] ∧ room.length = t.resultWords p.func
          ∧ t.complete p results s = (.ok (), s')
          ∧ s'.Holds trap (low ++ results.flatMap t.layout.encode ++ [id]) (call ++ above))
      ∧ (results.map (·.type) = p.func.results →
        ¬(AllKnown p.func.results ∧ t.resultWords p.func + 1 ≤ used.length) →
        ∃ e s', t.complete p results s = (.error e, s')
          ∧ s'.Holds trap used (call ++ above)) := by
  obtain ⟨trap, used, call, above, hs⟩ := asks_of_pending hp
  refine ⟨trap, used, call, above, hs, fun results =>
    ⟨fun htypes => ?_, complete_in_room hs, complete_late hs⟩⟩
  unfold complete
  cases hcheck : checkResults p.func results with
  | error e => exact ⟨_, rfl⟩
  | ok u => exact absurd (checkResults_eq_ok_iff.mp hcheck) htypes

theorem complete_effect_word :
    ∃ s', oneWord.complete ⟨⟨.host 0, .importCall 0, "env.f", [], [.i32]⟩, []⟩ [.ofU32 9]
        ⟨#[3, 0, 7, 5, 0x80000000]⟩ = (.ok (), s')
      ∧ s'.words.toList = [2, 0, 9, 5, 0x80000000] := by
  have hp : oneWord.pending ⟨#[3, 0, 7, 5, 0x80000000]⟩
      = .ok (some ⟨⟨.host 0, .importCall 0, "env.f", [], [.i32]⟩, []⟩) := rfl
  obtain ⟨trap, used, call, above, hs, hanswer⟩ := complete_effect hp
  obtain ⟨hsp, hrest⟩ := List.cons.inj hs.holds
  obtain ⟨rfl, hdata⟩ := List.cons.inj hrest
  have hcall : call.length = 1 := hs.call_length
  have hlength : (used ++ call).length = 3 := by
    rw [← Execution.toNat_toUInt32 hs.small, ← hsp]
    rfl
  rw [List.length_append, hcall] at hlength
  obtain ⟨a, b, rfl⟩ := List.length_eq_two.mp (Nat.succ.inj hlength)
  obtain ⟨c, rfl⟩ := List.length_eq_one_iff.mp hcall
  cases hdata
  obtain ⟨low, room, id, s', hused, hlen, hrun, hs'⟩ :=
    (hanswer [.ofU32 9]).2.1 rfl (fun t ht => by rw [List.mem_singleton.mp ht]; rfl) (by decide)
  obtain ⟨w, rfl⟩ := List.length_eq_one_iff.mp hlen
  have hlow : low.length = 0 := by
    have := congrArg List.length hused
    simpa using this
  obtain rfl := List.length_eq_zero_iff.mp hlow
  cases hused
  exact ⟨s', hrun, hs'⟩

/-- An answer that finds no room is refused with the request gone. -/
theorem refused_answer_pops :
    ¬∀ (t : HostTable) (s : LaneStack) (p : Pending) (results : List Value),
      t.pending s = .ok (some p) →
      (∃ s', t.complete p results s = (.ok (), s')) ∨ ∃ e, t.complete p results s = (.error e, s) := by
  intro h
  have hpending : oneWord.pending ⟨#[1, 0, 0x80000000]⟩
      = .ok (some ⟨⟨.host 0, .importCall 0, "env.f", [], [.i32]⟩, []⟩) := rfl
  rcases h _ _ _ [.ofU32 1] hpending with ⟨s', hs'⟩ | ⟨e, he⟩
  · cases hs'
  · cases congrArg (fun r => r.2.words) he

end Answer

end HostTable

end WasmShader
