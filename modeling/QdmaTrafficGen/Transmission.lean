import QdmaTrafficGen.Clocked.Index
import QdmaTrafficGen.Rto

namespace QdmaTrafficGen.Rto

open Clocked

/-- The wheel entry that is due is emitted, and no wheel entry is emitted before `tick`. -/
def Punctual (s : State) (i : Input) : Prop :=
  (s.tick = true → ∀ e, s.timerWheelVal = some e → s.out i = some e) ∧
    (s.tick = false → ∀ e, s.out i = some e → ∀ x, s.timerWheel x ≠ some e)

def emitted (u : ℕ → Input) (n : ℕ) : List Entry :=
  (collect (fun k ↦ (circuit.run u k).out (u k)) n).filter fun e ↦ !timed e.tcb

def queued (u : ℕ → Input) (n : ℕ) : List Entry :=
  collect (fun k ↦ (circuit.run u k).priorityQueue.pushed 32 (hpDin (u k))) n

/-- Every entry of the priority queue is emitted, once and in the order of the writes. -/
def DeliversQueue (u : ℕ → Input) : Prop :=
  (∀ n, emitted u n <+: queued u n) ∧ ∀ n, ∃ m, queued u n <+: emitted u m

/-- The two sources compete for a cycle only if the one that the quota prefers is the right one. -/
def Undisturbed (s : State) : Prop :=
  s.hpValid = true → s.timerWheelVal.isSome = true → (s.overQuota = true ↔ s.tick = true)

/-- The priority queue holds the TCBs that are sent at once, and the wheel the others. -/
def Sorted (s : State) : Prop :=
  (∀ e ∈ s.priorityQueue.contents, timed e.tcb = false) ∧
    ∀ x e, s.timerWheel x = some e → timed e.tcb = true

theorem timerWheel_next {s : State} {i : Input} {x : Wheel} {e : Entry}
    (h : (s.next i).timerWheel x = some e) :
    s.timerWheel x = some e ∨ e = ⟨i.tcbAddrIn, i.tcbDataIn⟩ ∧ timed i.tcbDataIn = true := by
  simp only [State.next, State.timerWheelNext] at h
  have hedited : (if s.cancels i then Function.update s.timerWheel (s.slotIdx i) none
      else if s.arms i then
        Function.update s.timerWheel (s.slot i) (some ⟨i.tcbAddrIn, i.tcbDataIn⟩)
      else s.timerWheel) x = some e := by
    split at h
    · exact (update_none_eq_some.mp h).2
    · exact h
  split at hedited
  · exact .inl (update_none_eq_some.mp hedited).2
  · split at hedited
    case isFalse => exact .inl hedited
    case isTrue har =>
      by_cases hx : x = s.slot i
      · subst hx
        rw [Function.update_self] at hedited
        simp only [State.arms, Bool.and_eq_true] at har
        exact .inr ⟨(Option.some.inj hedited).symm, har.2⟩
      · rw [Function.update_of_ne hx] at hedited
        exact .inl hedited

theorem timerWheel_idle {s : State} {i : Input} (hc : i.cancelRto = false) (hw : i.write = false) :
    (s.next i).timerWheel =
      if s.tick then Function.update s.timerWheel s.rdPtr none else s.timerWheel := by
  simp only [State.next, State.timerWheelNext, State.cancels, State.arms, hc, hw, Bool.false_and,
    Bool.and_false, Bool.false_eq_true, if_false]

theorem hpDin_untimed {i : Input} {e : Entry} (h : hpDin i = some e) : timed e.tcb = false := by
  simp only [hpDin] at h
  split at h
  case isFalse => simp at h
  case isTrue hw =>
    rw [← Option.some.inj h]
    simp only [Bool.and_eq_true, Bool.not_eq_true'] at hw
    exact hw.2

theorem sorted_next (s : State) (i : Input) (h : Sorted s) : Sorted (s.next i) := by
  refine ⟨fun e he ↦ ?_, fun x e hx ↦ ?_⟩
  · rcases Fifo.mem_next he with he | he
    · exact h.1 e he
    · exact hpDin_untimed he
  · rcases timerWheel_next hx with hx | ⟨rfl, ht⟩
    · exact h.2 x e hx
    · exact ht

theorem sorted_run (u : ℕ → Input) (n : ℕ) : Sorted (circuit.run u n) :=
  Circuit.invariant (I := Sorted) ⟨by simp [circuit], by simp [circuit]⟩ sorted_next n

theorem quota_idle {s : State} {i : Input} (hv : s.hpValid = false) (h0 : s.quota = 0) :
    s.quotaNext i = 0 := by
  have ho : s.overQuota = false := by simp [State.overQuota, h0]
  have hg : (s.arbiter i).grantHp = false := by
    cases hw : s.timerWheelVal <;> cases hr : i.txDatapathReady <;>
      simp [State.arbiter, hv, ho, hw, hr]
  simp [State.quotaNext, ho, hg, h0]

section

variable {s : State} {i : Input} (hr : i.txDatapathReady = true)

include hr

theorem out_wheel_only (hv : s.hpValid = false) :
    s.out i = if s.tick then s.timerWheelVal else none := by
  cases hw : s.timerWheelVal with
  | none => simp [State.out, State.tcbAddrOutValid, hv, hw]
  | some e => simp [State.out, State.tcbAddrOutValid, State.arbiter, hr, hv, hw]

theorem arbiter_wheel {e : Entry} (hw : s.timerWheelVal = some e) (hq : s.overQuota = true) :
    s.arbiter i = { grantLp := true, entry := e } := by
  simp [State.arbiter, hr, hw, hq]

theorem arbiter_queue (hv : s.hpValid = true) (hq : s.overQuota = true → s.timerWheelVal = none) :
    s.arbiter i = { grantHp := true, entry := s.priorityQueue.dout } := by
  simp only [State.arbiter, hr, hv, if_true]
  split
  case isTrue h4 => simp [hq h4]
  case isFalse => rfl

theorem out_of_hpValid (hv : s.hpValid = true) : s.out i = some (s.arbiter i).entry := by
  simp [State.out, State.tcbAddrOutValid, hr, hv]

omit hr in
theorem head_of_hpValid (hv : s.hpValid = true) :
    s.priorityQueue.contents.head? = some s.priorityQueue.dout := by
  apply Fifo.head_eq_dout
  intro hn
  simp [State.hpValid, Fifo.empty_iff.mpr hn] at hv

omit hr in
theorem dout_untimed (h : Sorted s) (hv : s.hpValid = true) :
    timed s.priorityQueue.dout.tcb = false :=
  h.1 _ (List.mem_of_head? (head_of_hpValid hv))

theorem out_filter (h : Sorted s) : (s.out i).filter (fun e ↦ !timed e.tcb) =
    s.priorityQueue.popped ((s.arbiter i).grantHp && i.txDatapathReady) := by
  cases hv : s.hpValid with
  | false =>
    have hn : s.priorityQueue.contents = [] := by
      apply Fifo.empty_iff.mp
      simpa [State.hpValid] using hv
    rw [out_wheel_only hr hv]
    cases hw : s.timerWheelVal with
    | none => simp [Fifo.popped, hn]
    | some e =>
      have he := h.2 _ e hw
      split <;> simp [Fifo.popped, hn, Option.filter, he]
  | true =>
    rw [out_of_hpValid hr hv]
    by_cases hq : s.overQuota = true → s.timerWheelVal = none
    · rw [arbiter_queue hr hv hq]
      simp [Option.filter, dout_untimed h hv, Fifo.popped, hr, head_of_hpValid hv]
    · obtain ⟨h4, hw⟩ := Classical.not_imp.mp hq
      obtain ⟨e, he⟩ := Option.ne_none_iff_exists'.mp hw
      have ht := h.2 _ e he
      rw [arbiter_wheel hr he h4]
      simp [Option.filter, ht, Fifo.popped]

theorem punctual_iff (h : Sorted s) : Punctual s i ↔ Undisturbed s := by
  cases hv : s.hpValid with
  | false =>
    refine iff_of_true ⟨fun ht e he ↦ ?_, fun ht e he ↦ ?_⟩ (by simp [Undisturbed, hv])
    · rw [out_wheel_only hr hv, if_pos ht, he]
    · rw [out_wheel_only hr hv, ht] at he
      simp at he
  | true =>
    have hd := dout_untimed h hv
    have hne : ∀ x, s.timerWheel x ≠ some s.priorityQueue.dout := by
      intro x hx
      rw [h.2 x _ hx] at hd
      exact Bool.noConfusion hd
    cases hw : s.timerWheelVal with
    | none =>
      refine iff_of_true ⟨fun _ e he ↦ by simp [hw] at he, fun _ e he ↦ ?_⟩
        (by simp [Undisturbed, hw])
      rw [out_of_hpValid hr hv, arbiter_queue hr hv fun _ ↦ hw] at he
      rw [← Option.some.inj he]
      exact hne
    | some e =>
      simp only [Punctual, Undisturbed, hv, hw, out_of_hpValid hr hv, Option.isSome_some,
        true_imp_iff]
      cases hq : s.overQuota with
      | true =>
        rw [arbiter_wheel hr hw hq]
        cases ht : s.tick with
        | true => simp
        | false => simpa using ⟨s.rdPtr, hw⟩
      | false =>
        rw [arbiter_queue hr hv fun h4 ↦ by simp [h4] at hq]
        cases ht : s.tick with
        | true => simpa using fun he ↦ hne s.rdPtr (hw.trans (congrArg some he.symm))
        | false => simpa using hne

end

section

variable {u : ℕ → Input} (hr : ∀ k, (u k).txDatapathReady = true)

include hr

theorem emitted_eq (n : ℕ) : emitted u n = collect (fun k ↦ (circuit.run u k).priorityQueue.popped
    (((circuit.run u k).arbiter (u k)).grantHp && (u k).txDatapathReady)) n := by
  rw [emitted, collect_filter]
  congr 1
  funext k
  exact out_filter (hr k) (sorted_run u k)

theorem queue_moves (n : ℕ) (hn : (circuit.run u n).priorityQueue.contents ≠ []) :
    ∃ k, n ≤ k ∧ ((circuit.run u k).priorityQueue.popped
      (((circuit.run u k).arbiter (u k)).grantHp && (u k).txDatapathReady)).isSome = true := by
  have hpop : ∀ k, (circuit.run u k).hpValid = true →
      ((circuit.run u k).overQuota = true → (circuit.run u k).timerWheelVal = none) →
      ((circuit.run u k).priorityQueue.popped
        (((circuit.run u k).arbiter (u k)).grantHp && (u k).txDatapathReady)).isSome = true := by
    intro k hv hq
    simp [arbiter_queue (hr k) hv hq, hr k, Fifo.popped, head_of_hpValid hv]
  have hv : (circuit.run u n).hpValid = true := by
    simpa [State.hpValid, Fifo.empty] using hn
  by_cases hq : (circuit.run u n).overQuota = true → (circuit.run u n).timerWheelVal = none
  · exact ⟨n, le_rfl, hpop n hv hq⟩
  · obtain ⟨h4, hw⟩ := Classical.not_imp.mp hq
    obtain ⟨e, he⟩ := Option.ne_none_iff_exists'.mp hw
    have ha := arbiter_wheel (hr n) he h4
    refine ⟨n + 1, by omega, hpop (n + 1) ?_ ?_⟩
    · rw [run_succ]
      simpa [State.hpValid, Fifo.empty, State.next, Fifo.next, ha] using fun h ↦ absurd h hn
    · have h0 : (circuit.run u (n + 1)).quota = 0 := by
        rw [run_succ]
        simp [State.next, State.quotaNext, h4, ha]
      simp [State.overQuota, h0]

theorem deliversQueue : DeliversQueue u := by
  have hq : ∀ n, (circuit.run u (n + 1)).priorityQueue =
      (circuit.run u n).priorityQueue.next 32 (hpDin (u n))
        (((circuit.run u n).arbiter (u n)).grantHp && (u n).txDatapathReady) := fun _ ↦ rfl
  refine ⟨fun n ↦ ?_, fun n ↦ ?_⟩
  · rw [emitted_eq hr, queued, ← Fifo.conservation (by rfl) hq n]
    exact List.prefix_append _ _
  · obtain ⟨m, hm⟩ := Fifo.delivered (by rfl) hq (queue_moves hr) n
    exact ⟨m, by rwa [emitted_eq hr]⟩

/-- With the transmit path ready, a run is punctual exactly as long as the two sources never
compete for a cycle that the quota gives to the wrong one; the queue is always delivered. -/
theorem transmission_iff :
    (∀ k, Punctual (circuit.run u k) (u k)) ∧ DeliversQueue u ↔
      ∀ k, Undisturbed (circuit.run u k) := by
  refine ⟨fun h k ↦ (punctual_iff (hr k) (sorted_run u k)).mp (h.1 k), fun h ↦ ⟨fun k ↦ ?_, ?_⟩⟩
  · exact (punctual_iff (hr k) (sorted_run u k)).mpr (h k)
  · exact deliversQueue hr

end

theorem not_punctual_of_due {s : State} {i : Input} (hr : i.txDatapathReady = true)
    (hs : Sorted s) (hv : s.hpValid = true) (hw : s.timerWheelVal.isSome = true)
    (h0 : s.quota = 0) (ht : s.tick = true) : ¬Punctual s i := by
  intro h
  have hu := ((punctual_iff hr hs).mp h hv hw).mpr ht
  simp [State.overQuota, h0] at hu

theorem timed_zero : timed 0 = false := rfl

theorem wheel_waits {u : ℕ → Input} {x : Wheel} {m n : ℕ} (hmn : m < n)
    (hidle : ∀ k, m < k → k < n → u k = {})
    (hdue : ∀ k, m ≤ k → k + 1 < n → k % 64 = 63 → k / 64 % 2 ^ 7 ≠ x.toNat) :
    (circuit.run u n).timerWheel x = (circuit.run u (m + 1)).timerWheel x := by
  refine Circuit.persists (I := fun s : State ↦
    s.timerWheel x = (circuit.run u (m + 1)).timerWheel x) hmn rfl ?_
  rintro (_ | k) hk hk' hw
  · omega
  · rw [run_succ, hidle _ (by omega) hk', timerWheel_idle rfl rfl]
    split_ifs with ht
    · rw [tick_run] at ht
      have hne : x ≠ BitVec.ofNat 7 (k / 64) := by
        rintro rfl
        exact hdue k (by omega) hk' ht (BitVec.toNat_ofNat ..).symm
      rwa [rdPtr_run, Function.update_of_ne hne]
    · exact hw

/-- A TCB that is sent at once, and one that waits for its timer. -/
def both (n : ℕ) : Input :=
  if n = 0 then { write := true, tcbAddrIn := 1 }
  else if n = 1 then { write := true, tcbDataIn := { nextSendTime := 1, backoffExp := 1 } }
  else {}

theorem both_queue (n : ℕ) : (circuit.run both (n + 2)).priorityQueue.contents = [] := by
  induction n with
  | zero => rfl
  | succ n ih =>
    rw [Nat.add_right_comm, run_succ]
    simp [State.next, Fifo.next, Fifo.pushed, hpDin, both, ih]

theorem both_transmitted :
    (circuit.run both 192).out {} = some ⟨0, { nextSendTime := 1, backoffExp := 1 }⟩ ∧
      (∀ k, Punctual (circuit.run both k) (both k)) ∧ DeliversQueue both := by
  have h : (∀ k, Punctual (circuit.run both k) (both k)) ∧ DeliversQueue both := by
    refine (transmission_iff fun k ↦ ?_).mpr fun k hv hw ↦ ?_
    · simp only [both]
      split
      · rfl
      · split <;> rfl
    · match k with
      | 0 => exact Bool.noConfusion hv
      | 1 => exact Bool.noConfusion hw
      | k + 2 => simp [State.hpValid, Fifo.empty, both_queue] at hv
  have ht : (circuit.run both (191 + 1)).tick = true := (tick_run both 191).mpr rfl
  have hw : (circuit.run both (191 + 1)).timerWheelVal =
      some ⟨0, { nextSendTime := 1, backoffExp := 1 }⟩ := by
    rw [State.timerWheelVal, rdPtr_run]
    refine (wheel_waits (m := 1) (by decide) (fun k hk _ ↦ ?_) fun k _ hk' hk ↦ ?_).trans (by decide)
    · rw [both, if_neg (by omega), if_neg (by omega)]
    · change k / 64 % 2 ^ 7 ≠ 2
      omega
  exact ⟨(h.1 192).1 ht _ hw, h⟩

def late (n : ℕ) : Input :=
  if n = 0 then { write := true, tcbDataIn := { nextSendTime := 1, backoffExp := 1 } }
  else if n = 191 then { write := true, tcbAddrIn := 1 }
  else {}

theorem late_idle {k : ℕ} (h0 : 0 < k) (hk : k < 191) : late k = {} := by
  rw [late, if_neg (by omega), if_neg (by omega)]

theorem late_waits : ((circuit.run late 191).timerWheel 2).isSome = true ∧
    (circuit.run late 191).priorityQueue.contents = [] ∧ (circuit.run late 191).quota = 0 := by
  constructor
  · rw [wheel_waits (m := 0) (by decide) (fun k h0 hk ↦ late_idle h0 hk) fun k _ hk' hk ↦ ?_]
    · rfl
    · change k / 64 % 2 ^ 7 ≠ 2
      omega
  · refine Circuit.persists (I := fun s : State ↦ s.priorityQueue.contents = [] ∧ s.quota = 0) (m := 1)
      (by omega) (by decide) ?_
    rintro k hk hk' ⟨hq, h0⟩
    have hv : (circuit.run late k).hpValid = false := by simp [State.hpValid, Fifo.empty, hq]
    rw [run_succ, late_idle (by omega) hk']
    exact ⟨by simp [State.next, Fifo.next, Fifo.pushed, hpDin, hq], quota_idle hv h0⟩

/-- The queue takes the only cycle in which the retransmission could be sent. -/
theorem late_not_punctual : ¬∀ k, Punctual (circuit.run late k) (late k) := by
  obtain ⟨hw, hq, h0⟩ := late_waits
  have ht : (circuit.run late (191 + 1)).tick = true := (tick_run late 191).mpr rfl
  have hr : (circuit.run late (191 + 1)).rdPtr = 2 := rdPtr_run late 191
  have hlate : late 191 = { write := true, tcbAddrIn := 1 } := rfl
  have hw' : (circuit.run late (191 + 1)).timerWheelVal.isSome = true := by
    rw [State.timerWheelVal, hr, run_succ, hlate]
    have ht' : ¬(circuit.run late (190 + 1)).tick = true := by
      rw [tick_run]
      decide
    simpa [State.next, State.timerWheelNext, State.cancels, State.arms, timed_zero, ht'] using hw
  have hq' : (circuit.run late (191 + 1)).hpValid = true := by
    rw [run_succ, hlate]
    simp [State.hpValid, Fifo.empty, State.next, Fifo.next, Fifo.pushed, Fifo.full, hpDin, timed_zero, hq]
  have h0' : (circuit.run late (191 + 1)).quota = 0 := by
    have hv : (circuit.run late 191).hpValid = false := by simp [State.hpValid, Fifo.empty, hq]
    rw [run_succ]
    simp only [State.next, quota_idle hv h0]
  exact fun h ↦ not_punctual_of_due rfl (sorted_run late (191 + 1)) hq' hw' h0' ht (h (191 + 1))

end QdmaTrafficGen.Rto
