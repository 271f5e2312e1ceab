import QdmaTrafficGen.FlowPackets

namespace QdmaTrafficGen.FlowGen

open Clocked

variable {N depth : ℕ}

def State.completes (s : State N) (i : Input N) : Bool := (s.output i).rxValid && (s.output i).rxLast

/-- Flow `k` is running and its FIFO holds a beat, but another flow is current. -/
structure Waits (s : State N) (i : Input N) (k : Fin N) : Prop where
  not_current : s.currentFlow ≠ BitVec.twoPow N k
  running : i.flowRunning.getLsbD k = true
  stored : (s.fifo k).emptyReg = false

section

variable {s : State N} {i : Input N} {c k : Fin N}

theorem completes_eq (hc : s.currentFlow = BitVec.twoPow N c) : s.completes i = s.packetComplete i := by
  rw [State.completes, output_eq hc, Bool.eq_iff_iff, packetComplete_iff hc]
  simp only [State.flowOutput, Bool.and_eq_true]
  tauto

theorem candidate_ne_zero (hc : s.currentFlow = BitVec.twoPow N c) {j : ℕ} (hj : j < N) :
    s.candidate i j ≠ 0 ↔ (s.fifo (place c j)).mTvalid = true ∧ i.flowRunning.getLsbD (place c j) = true := by
  rw [State.candidate, hc, rotate_twoPow c hj, BitVec.and_assoc]
  refine (twoPow_and_ne_zero _ _).trans ?_
  rw [BitVec.getLsbD_and, State.fifoTvalid, getLsbD_bus, Bool.and_eq_true]

theorem candidate_eq (hc : s.currentFlow = BitVec.twoPow N c) {j : ℕ} (hj : j < N)
    (h : s.candidate i j ≠ 0) : s.candidate i j = BitVec.twoPow N (place c j) := by
  rw [State.candidate, hc, rotate_twoPow c hj, BitVec.and_assoc] at h ⊢
  exact twoPow_and_of_ne_zero h

theorem nextFlow_ahead (hc : s.currentFlow = BitVec.twoPow N c) (hne : c ≠ k)
    (hv : (s.fifo k).mTvalid = true) (hr : i.flowRunning.getLsbD k = true) :
    ∃ c' : Fin N, s.nextFlow i = BitVec.twoPow N c' ∧ (s.fifo c').mTvalid = true ∧ ahead c' k < ahead c k := by
  have hlt := ahead_lt c k
  have hpos := ahead_pos hne
  have hcand : s.candidate i (ahead c k) ≠ 0 := by
    rw [candidate_ne_zero hc hlt, place_ahead]
    exact ⟨hv, hr⟩
  cases hj : (List.range' 1 (N - 1)).find? fun j ↦ s.candidate i j ≠ 0 with
  | none =>
    rw [List.find?_range'_eq_none] at hj
    have hnone := hj (ahead c k) hpos (by omega)
    rw [decide_eq_true hcand] at hnone
    exact absurd hnone (by decide)
  | some j =>
    obtain ⟨hcj, hmem, hfirst⟩ := List.find?_range'_eq_some.mp hj
    rw [decide_eq_true_eq] at hcj
    have hj₁ := (List.mem_range'_1.mp hmem).1
    have hle : j ≤ ahead c k := by
      by_contra hgt
      have hskip := hfirst (ahead c k) hpos (by omega)
      rw [decide_eq_true hcand] at hskip
      exact absurd hskip (by decide)
    have hjN : j < N := by omega
    refine ⟨place c j, ?_, ((candidate_ne_zero hc hjN).mp hcj).1, ?_⟩
    · rw [State.nextFlow, hj]
      dsimp only
      rw [candidate_eq hc hjN hcj]
      exact lsb_twoPow _
    · rw [ahead_place c k hle]
      omega

theorem ahead_next (hc : s.currentFlow = BitVec.twoPow N c) (hw : Waits s i k)
    (hv : (s.fifo k).mTvalid = true) {c' : Fin N}
    (hc' : (s.next depth i).currentFlow = BitVec.twoPow N c') :
    (if s.completes i then 1 else 0) + ahead c' k ≤ ahead c k := by
  have hne : c ≠ k := by
    rintro rfl
    exact hw.not_current hc
  obtain ⟨d, hd, hdv, hlt⟩ := nextFlow_ahead hc hne hv hw.running
  have hready : s.nextFlow i &&& s.fifoTvalid ≠ 0 := by
    rw [hd]
    refine (twoPow_and_ne_zero d _).mpr ?_
    rw [State.fifoTvalid, getLsbD_bus, hdv]
  have hsw : s.switchTrigger i = (s.packetComplete i || s.currentFlowEmpty) := by
    rw [State.switchTrigger, decide_eq_true hready, Bool.true_and]
  rw [completes_eq hc]
  cases hs : s.switchTrigger i with
  | true =>
    have hcd : (s.next depth i).currentFlow = BitVec.twoPow N d := by
      rw [← hd]
      exact if_pos hs
    rw [twoPow_inj (hc'.symm.trans hcd)]
    split <;> omega
  | false =>
    have hcc : (s.next depth i).currentFlow = BitVec.twoPow N c := by
      rw [← hc]
      exact if_neg (Bool.eq_false_iff.mp hs)
    rw [hsw, Bool.or_eq_false_iff] at hs
    rw [twoPow_inj (hc'.symm.trans hcc), hs.1, if_neg Bool.false_ne_true, Nat.zero_add]

theorem read_of_tlastRdD1 (hc : s.currentFlow = BitVec.twoPow N c)
    (hb : ((s.next depth i).fifo k).tlastRdD1 = true) : c = k ∧ s.packetComplete i = true := by
  obtain ⟨b, ht, hl⟩ := (AxisFifo.tlastRdD1_next _ _).mp hb
  rw [AxisFifo.State.taken, Option.ite_none_right_eq_some, Bool.and_eq_true] at ht
  obtain ⟨⟨hv, hr⟩, hb⟩ := ht
  obtain rfl := Option.some.inj hb
  have hck : c = k := by
    by_contra hne
    exact Bool.false_ne_true ((fifoTready_of_ne hc (Ne.symm hne)).symm.trans hr)
  rw [hck] at hc
  exact ⟨hck, (packetComplete_iff hc).mpr ⟨hr, hv, hl⟩⟩

/-- A FIFO that hides its beats belongs to the current flow, or no beat is put out in this cycle. -/
def Hides (s : State N) : Prop :=
  ∀ k, (s.fifo k).tlastRdD1 = true → s.currentFlow = BitVec.twoPow N k ∨ s.switchGap = true

theorem hides_next (hc : s.currentFlow = BitVec.twoPow N c) : Hides (s.next depth i) := by
  intro k hb
  obtain ⟨rfl, -⟩ := read_of_tlastRdD1 hc hb
  cases hs : s.switchTrigger i with
  | true => exact .inr hs
  | false => exact .inl ((if_neg (Bool.eq_false_iff.mp hs)).trans hc)

theorem completes_of_switchGap (hc : s.currentFlow = BitVec.twoPow N c) (hg : s.switchGap = true) :
    s.completes i = false := by
  have hr : s.fifoTready i c = false := by rw [State.fifoTready, hg, Bool.not_true, Bool.and_false]
  rw [State.completes, output_eq hc, State.flowOutput, hr, Bool.and_false, Bool.false_and]

end

section

variable {mem : Fin N → ℕ → Beat} {config : Fin N → FlowConfig} {u : ℕ → Input N}

theorem hides_run (hN : 0 < N) (n : ℕ) : Hides ((circuit depth mem config).run u n) := by
  cases n with
  | zero => exact fun k hb ↦ absurd hb Bool.false_ne_true
  | succ n =>
    obtain ⟨c, hc⟩ := oneHot_run depth mem config u hN n
    exact hides_next hc

/-- How many packets are completed in the cycles from `m` to `n - 1`. -/
def completed (s : ℕ → State N) (u : ℕ → Input N) (m n : ℕ) : ℕ :=
  (List.range' m (n - m)).countP fun t ↦ (s t).completes (u t)

theorem completed_succ (s : ℕ → State N) (u : ℕ → Input N) {m n : ℕ} (h : m ≤ n) :
    completed s u m (n + 1) = completed s u m n + if (s n).completes (u n) then 1 else 0 := by
  rw [completed, Nat.succ_sub h, List.range'_concat, List.countP_append, List.countP_singleton,
    Nat.one_mul, Nat.add_sub_cancel' h, completed]

/-- A running flow whose FIFO holds a beat becomes the current flow after at most `N - 1` packets of
the other flows. -/
theorem round_robin (hN : 2 ≤ N) (k : Fin N) {m n : ℕ}
    (h : ∀ t, m ≤ t → t < n → Waits ((circuit depth mem config).run u t) (u t) k) :
    completed ((circuit depth mem config).run u) u m n ≤ N - 1 := by
  choose flow hflow using oneHot_run depth mem config u (show 0 < N by omega)
  rcases Nat.lt_or_ge n m with hlt | hmn
  · rw [completed, Nat.sub_eq_zero_of_le hlt.le]
    exact Nat.zero_le _
  have hbound : completed ((circuit depth mem config).run u) u m n + ahead (flow n) k ≤ N - 1 := by
    induction n, hmn using Nat.le_induction with
    | base =>
      have hlt := ahead_lt (flow m) k
      rw [completed, Nat.sub_self, List.range'_zero, List.countP_nil]
      omega
    | succ n hmn ih =>
      have hw := h n hmn (Nat.lt_succ_self n)
      have ih := ih fun t hm hn ↦ h t hm (Nat.lt_succ_of_lt hn)
      rw [completed_succ _ _ hmn]
      cases hb : (((circuit depth mem config).run u n).fifo k).tlastRdD1 with
      | false =>
        have hv : (((circuit depth mem config).run u n).fifo k).mTvalid = true := by
          rw [AxisFifo.State.mTvalid, hw.stored, hb]
          rfl
        have hstep := ahead_next (hflow n) hw hv (hflow (n + 1))
        omega
      | true =>
        rcases hmn.eq_or_lt with rfl | hlt
        · have hgap := (hides_run (by omega) m k hb).resolve_left hw.not_current
          have hlt := ahead_lt (flow (m + 1)) k
          rw [completed, Nat.sub_self, List.range'_zero, List.countP_nil,
            completes_of_switchGap (hflow m) hgap, if_neg Bool.false_ne_true]
          omega
        · obtain ⟨n, rfl⟩ := Nat.exists_eq_add_of_lt hlt
          have hk := (read_of_tlastRdD1 (hflow (m + n)) hb).1
          exact absurd (hk ▸ hflow (m + n)) (h (m + n) (by omega) (by omega)).not_current
  omega

theorem burst_round_robin :
    completed ((circuit 2 (fun _ _ ↦ {}) fun _ ↦ {}).run burst) burst 2 4 = 1 ∧
      completed ((circuit 2 (fun _ _ ↦ {}) fun _ ↦ {}).run burst) burst 2 4 ≤ 2 - 1 := by
  refine ⟨by decide +kernel, round_robin (by decide) 1 fun t hm hn ↦ ?_⟩
  obtain rfl | rfl : t = 2 ∨ t = 3 := by omega
  · exact ⟨by decide +kernel, by decide +kernel, by decide +kernel⟩
  · exact ⟨by decide +kernel, by decide +kernel, by decide +kernel⟩

end

end QdmaTrafficGen.FlowGen
