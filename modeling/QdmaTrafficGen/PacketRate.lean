import QdmaTrafficGen.GeneratedPackets
import QdmaTrafficGen.UserControl

namespace QdmaTrafficGen.TrafficGen

open Clocked

def runFrom (s : State) (u : ℕ → Input) (n : ℕ) : State := (Circuit.mk s State.next).run u n

/-- The configuration is `c`, and nothing holds the generator back. -/
structure Steady (c : FlowConfig) (i : Input) : Prop where
  configIn : i.configIn = c
  tready : i.tready = true
  flowRunning : i.flowRunning = true

/-- A cycle that puts out the first beat of a packet. -/
def Starts (s : State) : Prop := s.currState = .transfer ∧ s.isHeader = true

def minCycles (c : FlowConfig) : ℕ := beatsPerPkt c.pktSize + 1

def rank (s : State) : ℕ :=
  match s.currState with
  | .idle => 0
  | .wait => (s.cyclesPkt - 1).toNat - s.waitCounter.toNat
  | .transfer => 2 ^ 32 + (2 ^ 16 - s.transCounter.toNat)

section

variable {i : Input} {c : FlowConfig} {s : State} {u : ℕ → Input} {C : BitVec 32}

theorem cyclesNeeded_toNat : i.cyclesNeeded.toNat = minCycles i.configIn := by
  have hlt := i.configIn.pktSize.isLt
  have hlow : (i.configIn.pktSize.extractLsb' 0 6 ≠ 0) ↔ i.configIn.pktSize.toNat % 64 ≠ 0 := by
    rw [ne_eq, ← BitVec.toNat_inj, BitVec.extractLsb'_toNat]
    rfl
  have hhigh : (i.configIn.pktSize.extractLsb' 6 10).toNat = i.configIn.pktSize.toNat / 64 := by
    rw [BitVec.extractLsb'_toNat, Nat.shiftRight_eq_div_pow]
    omega
  simp only [Input.cyclesNeeded, minCycles, beatsPerPkt, BitVec.toNat_add, BitVec.toNat_setWidth, hhigh,
    hlow]
  split
  · change ((i.configIn.pktSize.toNat / 64 % 2 ^ 32 + 1) % 2 ^ 32 + 1) % 2 ^ 32 = _
    omega
  · change ((i.configIn.pktSize.toNat / 64 % 2 ^ 32 + 0) % 2 ^ 32 + 1) % 2 ^ 32 = _
    omega

theorem cyclesGranted_toNat :
    i.cyclesGranted.toNat = max i.configIn.cyclesPerPkt.toNat (minCycles i.configIn) := by
  have hn := cyclesNeeded_toNat (i := i)
  unfold Input.cyclesGranted
  split
  case isTrue h =>
    rw [BitVec.lt_def, hn] at h
    omega
  case isFalse h =>
    rw [BitVec.lt_def, hn] at h
    omega

theorem sending_of_starts (hu : Steady c i) (h : Starts (s.next i)) :
    Sending i.cyclesGranted 0 (s.next i) := by
  cases hc : s.currState with
  | transfer =>
    have hh := (next_beat hc hu.tready).2.2.1
    exact absurd (hh.symm.trans h.2) Bool.false_ne_true
  | idle => exact sending_of_idle hc hu.tready hu.flowRunning
  | wait =>
    have ht := h.1
    rw [currState_next, State.nextState, hc] at ht
    obtain ⟨curr, wait, trans, header, cycles⟩ := s
    obtain rfl : curr = .wait := hc
    simp only [hu.flowRunning, hu.tready, if_true, Bool.true_and, ite_eq_left_iff] at ht
    have hr : State.rested ⟨.wait, wait, trans, header, cycles⟩ = true := by
      by_contra hr
      exact absurd (ht hr) (by decide)
    simp only [State.next, State.nextState, hu.flowRunning, hu.tready, hr, Bool.and_self, if_true]
    exact ⟨rfl, rfl, rfl, iff_of_true rfl rfl, rfl⟩

theorem rank_wait (hu : Steady c i) (hc : s.currState = .wait) :
    Starts (s.next i) ∨ rank (s.next i) < rank s := by
  obtain ⟨curr, wait, trans, header, cycles⟩ := s
  obtain rfl : curr = .wait := hc
  cases hr : State.rested ⟨.wait, wait, trans, header, cycles⟩ with
  | true =>
    left
    simp only [Starts, State.next, State.nextState, hu.flowRunning, hu.tready, hr, Bool.and_self, if_true,
      and_self]
  | false =>
    right
    simp only [State.rested, decide_eq_false_iff_not, BitVec.not_le] at hr
    simp only [rank, State.next, State.nextState, State.rested, hu.flowRunning, hu.tready, if_true,
      BitVec.not_le.mpr hr, decide_false, Bool.and_false, Bool.false_eq_true, if_false]
    bv_omega

theorem rank_transfer (hu : Steady c i) (h64 : 64 ≤ c.pktSize.toNat) (hc : s.currState = .transfer) :
    rank (s.next i) < rank s := by
  obtain ⟨hcurr, hcount, -, -, -⟩ := next_beat hc hu.tready
  have hlt := s.transCounter.isLt
  have hp : 64 ≤ i.configIn.pktSize.toNat := by
    rw [hu.configIn]
    exact h64
  have hmax := i.configIn.pktSize.isLt
  have hold : rank s = 2 ^ 32 + (2 ^ 16 - s.transCounter.toNat) := by rw [rank, hc]
  cases he : s.atEnd i with
  | true =>
    rw [he, if_pos rfl] at hcurr
    have hw := ((s.next i).cyclesPkt - 1).isLt
    rw [rank, hcurr, hold]
    change ((s.next i).cyclesPkt - 1).toNat - (s.next i).waitCounter.toNat < _
    omega
  | false =>
    have hend := (atEnd_iff (s := s) hp).not.mp (by rw [he]; decide)
    rw [he, if_neg Bool.false_ne_true] at hcurr hcount
    have hadd : (s.transCounter + 64).toNat = s.transCounter.toNat + 64 := by
      rw [BitVec.toNat_add]
      change (s.transCounter.toNat + 64) % 2 ^ 16 = _
      omega
    rw [rank, hcurr, hold]
    change 2 ^ 32 + (2 ^ 16 - (s.next i).transCounter.toNat) < _
    rw [hcount, hadd]
    omega

theorem rank_next (hu : Steady c i) (h64 : 64 ≤ c.pktSize.toNat) :
    Starts (s.next i) ∨ rank (s.next i) < rank s := by
  cases hc : s.currState with
  | idle =>
    have h := sending_of_idle hc hu.tready hu.flowRunning
    exact .inl ⟨h.currState, h.isHeader.mpr rfl⟩
  | wait => exact rank_wait hu hc
  | transfer => exact .inr (rank_transfer hu h64 hc)

variable (hu : ∀ n, Steady c (u n)) (h64 : 64 ≤ c.pktSize.toNat)
include hu h64

theorem sending_run {n j : ℕ} (h : Sending C 0 (runFrom s u n)) (hj : j < beatsPerPkt c.pktSize) :
    Sending C j (runFrom s u (n + j)) := by
  induction j with
  | zero => exact h
  | succ j ih =>
    have hc := (hu (n + j)).configIn
    have hn := (ih (by omega)).next (i := u (n + j)) (by rw [hc]; exact h64) (hu (n + j)).tready
      (by rw [hc]; omega)
    rwa [hc, if_pos hj] at hn

theorem resting_run {n j : ℕ} (h : Sending C 0 (runFrom s u n)) (hlo : beatsPerPkt c.pktSize ≤ j)
    (hj : j < C.toNat) : Resting C j (runFrom s u (n + j)) := by
  induction j, hlo using Nat.le_induction with
  | base =>
    have hpos := beatsPerPkt_pos h64
    obtain ⟨K, hK⟩ : ∃ K, beatsPerPkt c.pktSize = K + 1 := ⟨_, (Nat.succ_pred_eq_of_pos hpos).symm⟩
    have hc := (hu (n + K)).configIn
    have hn := (sending_run hu h64 h (show K < _ by omega)).next (i := u (n + K))
      (by rw [hc]; exact h64) (hu (n + K)).tready (by rw [hc]; omega)
    rw [hc, hK, if_neg (by omega)] at hn
    rw [hK]
    exact hn
  | succ j hlo ih =>
    have hn := (ih (by omega)).next (hu (n + j)).tready (hu (n + j)).flowRunning (by omega)
    rwa [if_pos hj] at hn

/-- From one packet to the next it takes as many cycles as have been granted. -/
theorem spaced_starts (hC : beatsPerPkt c.pktSize < C.toNat) (hg : ∀ n, (u n).cyclesGranted = C) :
    Spaced (fun n ↦ Starts (runFrom s u (n + 1))) C.toNat := by
  intro n hn
  have h₀ : Sending C 0 (runFrom s u (n + 1)) := by
    rw [← hg n]
    exact sending_of_starts (hu n) hn
  have hlast := resting_run hu h64 (j := C.toNat - 1) h₀ (by omega) (by omega)
  have hnext := hlast.next (hu (n + 1 + (C.toNat - 1))).tready (hu _).flowRunning (by omega)
  rw [if_neg (by omega)] at hnext
  constructor
  · have he : n + C.toNat + 1 = n + 1 + (C.toNat - 1) + 1 := by omega
    change Starts (runFrom s u (n + C.toNat + 1))
    rw [he]
    exact ⟨hnext.currState, hnext.isHeader.mpr rfl⟩
  · intro m hnm hm
    obtain ⟨d, rfl⟩ : ∃ d, m = n + (d + 1) := ⟨m - n - 1, by omega⟩
    change ¬Starts (runFrom s u (n + (d + 1) + 1))
    rw [show n + (d + 1) + 1 = n + 1 + (d + 1) by omega]
    rcases Nat.lt_or_ge (d + 1) (beatsPerPkt c.pktSize) with hd | hd
    · intro hs
      exact Nat.succ_ne_zero d ((sending_run hu h64 h₀ hd).isHeader.mp hs.2)
    · intro hs
      have hr := resting_run hu h64 h₀ hd (by omega)
      exact absurd (hr.currState.symm.trans hs.1) (by decide)

theorem starts_eventually : ∃ n, Starts (runFrom s u (n + 1)) :=
  exists_of_rank (r := fun n ↦ rank (runFrom s u n)) fun n ↦ rank_next (hu n) h64

theorem spaced_starts_iff (hC : beatsPerPkt c.pktSize < C.toNat) (hg : ∀ n, (u n).cyclesGranted = C)
    {d : ℕ} (hd : 0 < d) : Spaced (fun n ↦ Starts (runFrom s u (n + 1))) d ↔ d = C.toNat := by
  have hs := spaced_starts (s := s) hu h64 hC hg
  constructor
  · intro h
    obtain ⟨n, hn⟩ := starts_eventually (s := s) hu h64
    exact h.unique hs hn hd (by omega)
  · rintro rfl
    exact hs

end

section

variable {N : ℕ} {j : Fin N} {wrAddr wdata : BitVec 32} {regs : UserControl.State N} {s : State}
  {u : ℕ → Input}

theorem minCycles_le (c : FlowConfig) : 1 ≤ minCycles c ∧ minCycles c ≤ 1025 := by
  have hlt := c.pktSize.isLt
  unfold minCycles beatsPerPkt
  omega

theorem spaced_of_write (ha : wrAddr.toNat = 0x214 + 0x20 * j.val)
    (h64 : 64 ≤ (regs.flowConfigReg j).pktSize.toNat)
    (hu : ∀ n, Steady ((regs.write wrAddr wdata).flowConfigReg j) (u n)) {d : ℕ} (hd : 0 < d) :
    Spaced (fun n ↦ Starts (runFrom s u (n + 1))) d ↔
      d = max (wdata - 1).toNat (minCycles (regs.flowConfigReg j)) := by
  have hw := regs.write_cyclesPerPkt wdata ha
  rw [hw] at hu
  have hg : ∀ n, (u n).cyclesGranted.toNat =
      max (wdata - 1).toNat (minCycles (regs.flowConfigReg j)) := by
    intro n
    rw [cyclesGranted_toNat, (hu n).configIn]
    rfl
  have hC : beatsPerPkt (regs.flowConfigReg j).pktSize < (u 0).cyclesGranted.toNat := by
    rw [hg 0, minCycles]
    omega
  have hc : ∀ n, (u n).cyclesGranted = (u 0).cyclesGranted := by
    intro n
    rw [← BitVec.toNat_inj, hg, hg]
  rw [spaced_starts_iff hu h64 hC hc hd, hg 0]

/-- After a write of `wdata` to the register of `cycles_per_pkt`, packets start `wdata` cycles apart,
or the minimum if that is more, exactly if `wdata` is neither zero nor above the minimum. -/
theorem rate_iff (ha : wrAddr.toNat = 0x214 + 0x20 * j.val)
    (h64 : 64 ≤ (regs.flowConfigReg j).pktSize.toNat)
    (hu : ∀ n, Steady ((regs.write wrAddr wdata).flowConfigReg j) (u n)) :
    Spaced (fun n ↦ Starts (runFrom s u (n + 1)))
        (max wdata.toNat (minCycles (regs.flowConfigReg j))) ↔
      1 ≤ wdata.toNat ∧ wdata.toNat ≤ minCycles (regs.flowConfigReg j) := by
  obtain ⟨hpos, hmax⟩ := minCycles_le (regs.flowConfigReg j)
  have hsub : (wdata - 1).toNat = if wdata.toNat = 0 then 2 ^ 32 - 1 else wdata.toNat - 1 := by
    split <;> bv_omega
  rw [spaced_of_write ha h64 hu (by omega), hsub]
  split <;> omega

/-- Flow 0 of the configuration after reset, with `wdata` written to its `cycles_per_pkt`. -/
def flow0 (wdata : BitVec 32) : Input where
  configIn := ((UserControl.State.reset (1 : BitVec 16)).write 0x214 wdata).flowConfigReg 0
  tready := true
  flowRunning := true

theorem flow0_rate : Spaced (fun n ↦ Starts (runFrom {} (fun _ ↦ flow0 2) (n + 1))) 3 :=
  have hu : ∀ n, Steady (((UserControl.State.reset (1 : BitVec 16)).write 0x214 2).flowConfigReg 0)
      ((fun _ : ℕ ↦ flow0 2) n) := fun _ ↦ ⟨rfl, rfl, rfl⟩
  (rate_iff (by decide) (by decide) hu).mpr (by decide)

theorem rate_of_zero : ¬∀ (regs : UserControl.State 16) (j : Fin 16) (wrAddr wdata : BitVec 32)
    (s : State) (u : ℕ → Input), wrAddr.toNat = 0x214 + 0x20 * j.val →
      64 ≤ (regs.flowConfigReg j).pktSize.toNat →
      (∀ n, Steady ((regs.write wrAddr wdata).flowConfigReg j) (u n)) →
      Spaced (fun n ↦ Starts (runFrom s u (n + 1)))
        (max wdata.toNat (minCycles (regs.flowConfigReg j))) := by
  intro h
  have hu : ∀ _ : ℕ, Steady (((UserControl.State.reset (1 : BitVec 16)).write 0x214 0).flowConfigReg 0) (flow0 0) :=
    fun _ ↦ ⟨rfl, rfl, rfl⟩
  have h₀ := h (.reset 1) 0 0x214 0 {} _ (by decide) (by decide) hu
  rw [spaced_of_write (by decide) (by decide) hu (by decide)] at h₀
  exact absurd h₀ (by decide)

end

end QdmaTrafficGen.TrafficGen
