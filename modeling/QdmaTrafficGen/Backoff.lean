import Mathlib.Logic.Function.Iterate
import QdmaTrafficGen.Rto
import QdmaTrafficGen.SendWindow

namespace QdmaTrafficGen.Backoff

open Clocked TcpCtrl SendWindow Rto

/-- The TCBs that updates of `tcp_ctrl` lead to, each starting from the `tcb_out` of the one before.
An update with `invalidate` frees the TCB, and the zeroed record begins a new one. -/
inductive Reachable : Tcb → Prop
  | zeroed : Reachable 0
  | opened (hdr : Header) : Reachable (newPacketTcb hdr)
  | updated {tcb : Tcb} (e : Event) : Reachable tcb → Reachable (e.update tcb).tcb

structure Scheduled (tcb : Tcb) : Prop where
  nextSendTime : tcb.nextSendTime = 0 ∨ tcb.nextSendTime = 1
  backoffExp : tcb.backoffExp ≤ 4
  sent : tcb.nextSendTime = 1 → 1 ≤ tcb.backoffExp

def resent (tcb : Tcb) (n : ℕ) : Tcb := (fun t ↦ (egress t).tcb)^[n] tcb

/-- What `rto` is given when `tcp_ctrl` hands over an update of the TCB at an address. -/
def rtoInput (u : Update) (addr : Addr) : Rto.Input where
  cancelRto := u.cancelRto
  write := true
  tcbAddrIn := addr
  tcbDataIn := u.tcb

def attempts (tcb : Tcb) : ℕ := if tcb.nextSendTime = 0 then 4 else 4 - tcb.backoffExp.toNat

section

variable {tcb : Tcb}

theorem scheduled_ingress (new : Bool) (hdr : Header) (tcb : Tcb) :
    Scheduled (ingress new hdr tcb).tcb where
  nextSendTime := .inl rfl
  backoffExp := by
    cases new
    · exact show (1 : BitVec 5) ≤ 4 by decide
    · exact show (0 : BitVec 5) ≤ 4 by decide
  sent := fun h ↦ absurd h (by simp [ingress])

theorem egress_first (h : tcb.nextSendTime = 0) :
    (egress tcb).tcb.nextSendTime = 1 ∧ (egress tcb).tcb.backoffExp = 1 := by
  rw [egress, if_pos h]
  exact ⟨rfl, rfl⟩

theorem egress_again (h : tcb.nextSendTime ≠ 0) (hb : tcb.backoffExp ≠ 4) :
    (egress tcb).tcb.nextSendTime = 1 ∧ (egress tcb).tcb.backoffExp = tcb.backoffExp + 1 := by
  rw [egress, if_neg h, if_neg hb]
  exact ⟨rfl, rfl⟩

theorem egress_last (h : tcb.nextSendTime ≠ 0) (hb : tcb.backoffExp = 4) :
    (egress tcb).tcb.nextSendTime = tcb.nextSendTime ∧
      (egress tcb).tcb.backoffExp = tcb.backoffExp ∧
      (egress tcb).tcb.csrCurr = .RST ∧ (egress tcb).invalidate = true := by
  rw [egress, if_neg h, if_pos hb]
  exact ⟨rfl, rfl, rfl, rfl⟩

theorem Scheduled.egress (h : Scheduled tcb) : Scheduled (egress tcb).tcb := by
  have hle := h.backoffExp
  by_cases hn : tcb.nextSendTime = 0
  · obtain ⟨h₁, h₂⟩ := egress_first hn
    refine ⟨.inr h₁, ?_, fun _ ↦ ?_⟩
    · rw [h₂]
      decide
    · rw [h₂]
      decide
  by_cases hb : tcb.backoffExp = 4
  · obtain ⟨h₁, h₂, -⟩ := egress_last hn hb
    refine ⟨h₁ ▸ h.nextSendTime, h₂ ▸ hle, fun h' ↦ ?_⟩
    rw [h₂]
    exact h.sent (h₁ ▸ h')
  · obtain ⟨h₁, h₂⟩ := egress_again hn hb
    refine ⟨.inr h₁, ?_, fun _ ↦ ?_⟩
    · rw [h₂]
      bv_omega
    · rw [h₂]
      bv_omega

theorem Scheduled.update (h : Scheduled tcb) (e : Event) : Scheduled (e.update tcb).tcb := by
  cases e with
  | rx readMiss hdr => apply scheduled_ingress
  | tx => exact h.egress

theorem Reachable.scheduled (h : Reachable tcb) : Scheduled tcb := by
  induction h with
  | zeroed => exact ⟨.inl rfl, by decide, fun h ↦ absurd h (by decide)⟩
  | opened hdr =>
    have h₀ : (newPacketTcb hdr).nextSendTime = 0 := rfl
    refine ⟨.inl h₀, ?_, fun h ↦ absurd (h₀.symm.trans h) (by decide)⟩
    exact show (0 : BitVec 5) ≤ 4 by decide
  | updated e _ ih => exact ih.update e

theorem Scheduled.egress_progress (h : Scheduled tcb) (hn : tcb.nextSendTime ≠ 0) :
    tcb.backoffExp < (TcpCtrl.egress tcb).tcb.backoffExp ∨
      (TcpCtrl.egress tcb).tcb.csrCurr = .RST ∧ (TcpCtrl.egress tcb).invalidate = true := by
  by_cases hb : tcb.backoffExp = 4
  · exact .inr (egress_last hn hb).2.2
  · have hle := h.backoffExp
    left
    rw [(egress_again hn hb).2]
    bv_omega

theorem Scheduled.attempts_egress (h : Scheduled tcb) :
    attempts (TcpCtrl.egress tcb).tcb + (if timed (TcpCtrl.egress tcb).tcb = true then 1 else 0) ≤
      attempts tcb := by
  have hle := h.backoffExp
  by_cases hn : tcb.nextSendTime = 0
  · obtain ⟨h₁, h₂⟩ := egress_first hn
    have h₃ : attempts (TcpCtrl.egress tcb).tcb = 3 := by
      rw [attempts, h₁, h₂]
      rfl
    rw [h₃, attempts, if_pos hn]
    split <;> omega
  by_cases hb : tcb.backoffExp = 4
  · obtain ⟨h₁, h₂, hrst, -⟩ := egress_last hn hb
    have ht : timed (TcpCtrl.egress tcb).tcb = false := by simp [timed, hrst]
    rw [attempts, attempts, h₁, h₂, ht]
    exact le_rfl
  · obtain ⟨h₁, h₂⟩ := egress_again hn hb
    have h₃ : attempts (TcpCtrl.egress tcb).tcb = 4 - (tcb.backoffExp + 1).toNat := by
      rw [attempts, h₁, h₂]
      rfl
    rw [h₃, attempts, if_neg hn]
    have hlt : tcb.backoffExp.toNat < 4 := by bv_omega
    have hadd : (tcb.backoffExp + 1).toNat = tcb.backoffExp.toNat + 1 := by bv_omega
    split <;> omega

theorem resent_succ (n : ℕ) : resent tcb (n + 1) = (TcpCtrl.egress (resent tcb n)).tcb :=
  Function.iterate_succ_apply' _ n tcb

theorem Scheduled.resent (h : Scheduled tcb) (n : ℕ) : Scheduled (resent tcb n) := by
  induction n with
  | zero => exact h
  | succ n ih =>
    rw [resent_succ]
    exact ih.egress

theorem Scheduled.armed_le (h : Scheduled tcb) (n : ℕ) :
    Nat.count (fun k ↦ timed (Backoff.resent tcb (k + 1)) = true) n ≤ 4 := by
  have hspent := count_le_of_spends (f := fun k ↦ attempts (Backoff.resent tcb k))
    (p := fun k ↦ timed (Backoff.resent tcb (k + 1)) = true) (fun k ↦ ?_) n
  · refine hspent.trans ?_
    change attempts tcb ≤ 4
    rw [attempts]
    split <;> omega
  · rw [resent_succ]
    exact (h.resent k).attempts_egress

theorem Scheduled.shift (h : Scheduled tcb) (hn : tcb.nextSendTime ≠ 0) :
    ∀ d : BitVec 7, d = tcb.nextSendTime.setWidth 7 <<< tcb.backoffExp → 2 ≤ d.toNat ∧ d.toNat ≤ 16 := by
  intro d hd
  have h₁ := h.nextSendTime.resolve_left hn
  have hlo := h.sent h₁
  have hhi := h.backoffExp
  rw [h₁] at hd
  generalize tcb.backoffExp = b at *
  subst hd
  revert b
  decide

theorem nextSendTime_of_cancel {e : Event} (h : (e.update tcb).cancelRto = true) :
    (e.update tcb).tcb.nextSendTime = 0 := by
  cases e with
  | rx readMiss hdr => rfl
  | tx =>
    simp only [Event.update, TcpCtrl.egress] at h
    split_ifs at h

/-- The slot that an update is written to lies two to seventeen positions ahead of `rd_ptr`. -/
theorem Scheduled.slot_ahead (h : Scheduled tcb) (e : Event) (s : Rto.State) (addr : Addr)
    (ha : s.arms (rtoInput (e.update tcb) addr) = true) :
    2 ≤ (s.slot (rtoInput (e.update tcb) addr) - s.rdPtr).toNat ∧
      (s.slot (rtoInput (e.update tcb) addr) - s.rdPtr).toNat ≤ 17 := by
  simp only [State.arms, rtoInput, timed, Bool.and_true, Bool.and_eq_true, bne_iff_ne, ne_eq] at ha
  obtain ⟨-, hn, hr⟩ := ha
  have hc : (e.update tcb).cancelRto = false := by
    rw [← Bool.not_eq_true]
    exact fun hc ↦ hn (nextSendTime_of_cancel hc)
  obtain ⟨hlo, hhi⟩ := (h.update e).shift hn _ rfl
  have ht : timed (e.update tcb).tcb = true := by
    simp only [timed, Bool.and_eq_true, bne_iff_ne]
    exact ⟨hn, hr⟩
  have hi : s.slotIdx (rtoInput (e.update tcb) addr) = s.rdPtr +
      (e.update tcb).tcb.nextSendTime.setWidth 7 <<< (e.update tcb).tcb.backoffExp := by
    simp only [State.slotIdx, rtoInput, hc, ht, Bool.false_eq_true, if_false, Bool.and_self, if_true]
  generalize (e.update tcb).tcb.nextSendTime.setWidth 7 <<< (e.update tcb).tcb.backoffExp = d at *
  rw [State.slot, hi]
  split
  · bv_omega
  · bv_omega

/-- The retransmission schedule of a TCB stays inside the timer wheel. -/
theorem Reachable.stays_inside (h : Reachable tcb) :
    Scheduled tcb ∧
      (tcb.nextSendTime ≠ 0 → tcb.backoffExp < (TcpCtrl.egress tcb).tcb.backoffExp ∨
        (TcpCtrl.egress tcb).tcb.csrCurr = .RST ∧ (TcpCtrl.egress tcb).invalidate = true) ∧
      (∀ n, Nat.count (fun k ↦ timed (resent tcb (k + 1)) = true) n ≤ 4) ∧
      ∀ (e : Event) (s : Rto.State) (addr : Addr), s.arms (rtoInput (e.update tcb) addr) = true →
        2 ≤ (s.slot (rtoInput (e.update tcb) addr) - s.rdPtr).toNat ∧
          (s.slot (rtoInput (e.update tcb) addr) - s.rdPtr).toNat ≤ 17 :=
  ⟨h.scheduled, h.scheduled.egress_progress, h.scheduled.armed_le, h.scheduled.slot_ahead⟩

def answered : Tcb := (Event.tx.update ((Event.rx true { tcpCsr := .SYN }).update 0).tcb).tcb

theorem answered_stays_inside :
    (answered.backoffExp < (TcpCtrl.egress answered).tcb.backoffExp ∨
      (TcpCtrl.egress answered).tcb.csrCurr = .RST ∧
        (TcpCtrl.egress answered).invalidate = true) ∧
      2 ≤ ((({} : Rto.State).slot (rtoInput (Event.tx.update answered) 5)) - 0).toNat := by
  have hr : Reachable answered := .updated .tx (.updated (.rx true { tcpCsr := .SYN }) .zeroed)
  obtain ⟨-, hp, -, hs⟩ := hr.stays_inside
  exact ⟨hp (by decide), (hs .tx {} 5 (by decide)).1⟩

end

end QdmaTrafficGen.Backoff
