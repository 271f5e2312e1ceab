import QdmaTrafficGen.Clocked.Index
import QdmaTrafficGen.Rto

namespace QdmaTrafficGen.Rto

open Clocked

/-- The timer wheel is a map from addresses to the retransmissions that are `armed`: each of them is
the only entry of its address, in the slot that the mapping names. -/
structure IsMap (s : State) (armed : Addr → Option (Wheel × Entry)) : Prop where
  indexes : Indexes Entry.addr s.timerWheel armed
  named : ∀ a x e, armed a = some (x, e) → s.mapping a = some x

namespace State

variable (s : State) (i : Input)

def unexpired (armed : Addr → Option (Wheel × Entry)) : Addr → Option (Wheel × Entry) :=
  fun a ↦ if s.tick then (armed a).filter (·.1 ≠ s.rdPtr) else armed a

/-- What is armed after a cycle: the slot at `rd_ptr` expires with `tick`, a cancel disarms its
address, and a write to the wheel arms its address. -/
def armedNext (armed : Addr → Option (Wheel × Entry)) : Addr → Option (Wheel × Entry) :=
  if i.cancelRto then Function.update (s.unexpired armed) i.tcbAddrIn none
  else if s.arms i then
    Function.update (s.unexpired armed) i.tcbAddrIn
      (some (s.slot i, ⟨i.tcbAddrIn, i.tcbDataIn⟩))
  else s.unexpired armed

def remaining : Wheel → Option Entry :=
  if s.tick then Function.update s.timerWheel s.rdPtr none else s.timerWheel

/-- A cancel that clears a slot finds no other address there, a cancel without a mapping comes
without a write to the wheel, and a write to the wheel does not go to the slot that expires, where
another address is still waiting, or past an entry of its own address. -/
def Orderly : Prop :=
  if i.cancelRto then
    match s.mapping i.tcbAddrIn with
    | some x => ∀ e, s.remaining x = some e → e.addr = i.tcbAddrIn
    | none => s.arms i = false
  else s.arms i = true →
    ¬(s.tick = true ∧ s.slot i = s.rdPtr) ∧
      (∀ e, s.remaining (s.slot i) = some e → e.addr = i.tcbAddrIn) ∧
      ∀ y e, s.remaining y = some e → e.addr = i.tcbAddrIn → y = s.slot i

end State

def armed (u : ℕ → Input) : ℕ → Addr → Option (Wheel × Entry)
  | 0 => fun _ ↦ none
  | n + 1 => (circuit.run u n).armedNext (u n) (armed u n)

section

variable {s : State} {i : Input} {m : Addr → Option (Wheel × Entry)}

theorem remaining_indexes (h : IsMap s m) :
    Indexes Entry.addr s.remaining (s.unexpired m) := by
  cases ht : s.tick
  · have hu : s.unexpired m = m := by
      funext a
      simp [State.unexpired, ht]
    simpa [State.remaining, ht, hu] using h.indexes
  · have hu : s.unexpired m = fun a ↦ (m a).filter (·.1 ≠ s.rdPtr) := by
      funext a
      simp [State.unexpired, ht]
    simpa [State.remaining, ht, hu] using h.indexes.clear s.rdPtr

theorem unexpired_named (h : IsMap s m) {a : Addr} {x : Wheel} {e : Entry}
    (ha : s.unexpired m a = some (x, e)) : s.mapping a = some x := by
  simp only [State.unexpired] at ha
  split at ha
  · exact h.named a x e (Option.filter_eq_some_iff.mp ha).1
  · exact h.named a x e ha

theorem expire_update {x : Wheel} (hx : ¬(s.tick = true ∧ x = s.rdPtr)) (e : Option Entry) :
    (if s.tick then Function.update (Function.update s.timerWheel x e) s.rdPtr none
      else Function.update s.timerWheel x e) = Function.update s.remaining x e := by
  cases ht : s.tick
  · simp [State.remaining, ht]
  · have hne : s.rdPtr ≠ x := fun he ↦ hx ⟨ht, he.symm⟩
    simp [State.remaining, ht, Function.update_comm hne]

theorem expire_clear (x : Wheel) :
    (if s.tick then Function.update (Function.update s.timerWheel x none) s.rdPtr none
      else Function.update s.timerWheel x none) = Function.update s.remaining x none := by
  by_cases hx : s.tick = true ∧ x = s.rdPtr
  · simp [State.remaining, hx.1, hx.2]
  · exact expire_update hx none

theorem isMap_cancel (h : IsMap s m) (hc : i.cancelRto = true) {x : Wheel}
    (hx : s.mapping i.tcbAddrIn = some x) :
    IsMap (s.next i) (s.armedNext i m) ↔ s.Orderly i := by
  have hw : (s.next i).timerWheel = Function.update s.remaining x none := by
    simp [State.next, State.timerWheelNext, State.cancels, State.slotIdx, hc, hx, expire_clear]
  have hm : (s.next i).mapping = Function.update s.mapping i.tcbAddrIn none := by
    simp [State.next, State.mappingNext, State.cancels, hc, hx]
  have ha : s.armedNext i m = Function.update (s.unexpired m) i.tcbAddrIn none := by
    simp [State.armedNext, hc]
  have ho : s.Orderly i ↔ ∀ e, s.remaining x = some e → e.addr = i.tcbAddrIn := by
    simp [State.Orderly, hc, hx]
  have hone : ∀ y e, s.unexpired m i.tcbAddrIn = some (y, e) → y = x := by
    intro y e hy
    exact Option.some.inj ((unexpired_named h hy).symm.trans hx)
  rw [ho, ← (remaining_indexes h).erase_iff i.tcbAddrIn x hone, ← hw, ← ha]
  refine ⟨fun h' ↦ h'.indexes, fun h' ↦ ⟨h', ?_⟩⟩
  intro a y e hay
  rw [ha] at hay
  have hne : a ≠ i.tcbAddrIn := by
    rintro rfl
    simp at hay
  rw [Function.update_of_ne hne] at hay
  rw [hm, Function.update_of_ne hne]
  exact unexpired_named h hay

theorem isMap_arm (h : IsMap s m) (hc : i.cancelRto = false) (har : s.arms i = true) :
    IsMap (s.next i) (s.armedNext i m) ↔ s.Orderly i := by
  have hcs : s.cancels i = false := by simp [State.cancels, hc]
  have hm : (s.next i).mapping = Function.update s.mapping i.tcbAddrIn (some (s.slot i)) := by
    simp [State.next, State.mappingNext, hcs, har]
  have ha : s.armedNext i m = Function.update (s.unexpired m) i.tcbAddrIn
      (some (s.slot i, ⟨i.tcbAddrIn, i.tcbDataIn⟩)) := by
    simp [State.armedNext, hc, har]
  by_cases hlost : s.tick = true ∧ s.slot i = s.rdPtr
  · have hno : ¬s.Orderly i := by simp [State.Orderly, hc, har, hlost]
    refine iff_of_false (fun h' ↦ ?_) hno
    have hw : (s.next i).timerWheel (s.slot i) = none := by
      simp [State.next, State.timerWheelNext, hcs, har, hlost.1, hlost.2]
    have hh := h'.indexes.held_of_some (a := i.tcbAddrIn) (by rw [ha, Function.update_self])
    rw [hw] at hh
    simp at hh
  · have hw : (s.next i).timerWheel =
        Function.update s.remaining (s.slot i) (some ⟨i.tcbAddrIn, i.tcbDataIn⟩) := by
      simp [State.next, State.timerWheelNext, hcs, har, expire_update hlost]
    have ho : s.Orderly i ↔ (∀ e, s.remaining (s.slot i) = some e → e.addr = i.tcbAddrIn) ∧
        ∀ y e, s.remaining y = some e → e.addr = i.tcbAddrIn → y = s.slot i := by
      simp only [State.Orderly, hc, har, hlost, Bool.false_eq_true, if_false, true_imp_iff,
        not_false_eq_true, true_and]
    rw [ho, ← (remaining_indexes h).insert_iff (s.slot i) ⟨i.tcbAddrIn, i.tcbDataIn⟩, ← hw, ← ha]
    refine ⟨fun h' ↦ h'.indexes, fun h' ↦ ⟨h', ?_⟩⟩
    intro a y e hay
    rw [ha] at hay
    by_cases hai : a = i.tcbAddrIn
    · subst hai
      rw [Function.update_self] at hay
      rw [hm, Function.update_self, (Prod.mk.inj (Option.some.inj hay)).1]
    · rw [Function.update_of_ne hai] at hay
      rw [hm, Function.update_of_ne hai]
      exact unexpired_named h hay

theorem isMap_quiet (h : IsMap s m) (hcs : s.cancels i = false) (har : s.arms i = false) :
    IsMap (s.next i) (s.armedNext i m) := by
  have hw : (s.next i).timerWheel = s.remaining := by
    simp [State.next, State.timerWheelNext, State.remaining, hcs, har]
  have hm : (s.next i).mapping = s.mapping := by simp [State.next, State.mappingNext, hcs, har]
  have ha : s.armedNext i m = s.unexpired m := by
    cases hc : i.cancelRto
    · simp [State.armedNext, hc, har]
    · have hn : s.mapping i.tcbAddrIn = none := by simpa [State.cancels, hc] using hcs
      have hu : s.unexpired m i.tcbAddrIn = none := by
        by_contra hne
        obtain ⟨⟨x, e⟩, he⟩ := Option.ne_none_iff_exists'.mp hne
        simp [unexpired_named h he] at hn
      simp only [State.armedNext, hc, if_true]
      exact Function.update_eq_self_iff.mpr hu.symm
  exact ⟨by rw [hw, ha]; exact remaining_indexes h,
    fun a x e hax ↦ by rw [hm]; rw [ha] at hax; exact unexpired_named h hax⟩

theorem isMap_stray (hc : i.cancelRto = true) (hx : s.mapping i.tcbAddrIn = none)
    (har : s.arms i = true) : ¬IsMap (s.next i) (s.armedNext i m) := by
  intro h'
  have hcs : s.cancels i = false := by simp [State.cancels, hx]
  have hne : s.slot i ≠ s.rdPtr := by
    simp only [State.slot, State.slotIdx, hc, hx, if_true, Option.getD_none]
    split <;> bv_omega
  have hw : (s.next i).timerWheel (s.slot i) = some ⟨i.tcbAddrIn, i.tcbDataIn⟩ := by
    have hlost : ¬(s.tick = true ∧ s.slot i = s.rdPtr) := fun hl ↦ hne hl.2
    simp [State.next, State.timerWheelNext, hcs, har, expire_update hlost]
  have hh := (h'.indexes.held _ _).mp hw
  simp [State.armedNext, hc] at hh

theorem isMap_next_iff (h : IsMap s m) : IsMap (s.next i) (s.armedNext i m) ↔ s.Orderly i := by
  cases hc : i.cancelRto with
  | true =>
    cases hx : s.mapping i.tcbAddrIn with
    | some x => exact isMap_cancel h hc hx
    | none =>
      have ho : s.Orderly i ↔ s.arms i = false := by simp [State.Orderly, hc, hx]
      rw [ho]
      cases har : s.arms i with
      | true => exact iff_of_false (isMap_stray hc hx har) (by simp)
      | false => exact iff_of_true (isMap_quiet h (by simp [State.cancels, hx]) har) rfl
  | false =>
    cases har : s.arms i with
    | true => exact isMap_arm h hc har
    | false =>
      refine iff_of_true (isMap_quiet h (by simp [State.cancels, hc]) har) ?_
      simp [State.Orderly, hc, har]

end

/-- In a run, the timer wheel is a map of what is armed for exactly as long as all cycles are
orderly. -/
theorem isMap_run_iff (u : ℕ → Input) (n : ℕ) :
    (∀ k ≤ n, IsMap (circuit.run u k) (armed u k)) ↔
      ∀ k < n, (circuit.run u k).Orderly (u k) :=
  stepwise_iff (I := fun k ↦ IsMap (circuit.run u k) (armed u k)) ⟨.nothing, by simp [armed]⟩
    (fun _ ↦ isMap_next_iff) n

def rearm (n : ℕ) : Input :=
  if n < 2 then { write := true, tcbDataIn := { nextSendTime := 1, backoffExp := 1 } } else {}

theorem rearm_not_isMap : ¬∀ n, IsMap (circuit.run rearm n) (armed rearm n) := by
  intro h
  have hh := ((h 2).indexes.held 2 ⟨0, { nextSendTime := 1, backoffExp := 1 }⟩).mp (by decide)
  exact absurd hh (by decide)

end QdmaTrafficGen.Rto
