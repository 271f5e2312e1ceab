import QdmaTrafficGen.HeaderPipeline
import QdmaTrafficGen.SynSequence
import QdmaTrafficGen.TcbUpdates

namespace QdmaTrafficGen.TopLevel

open Clocked TcpCtrl

/-- `ACK_valid`: the number acknowledges something that is in flight. -/
def Acknowledges (hdr : Header) (tcb : Tcb) : Prop :=
  tcb.sndUna < hdr.tcpHdr.ackNum ∧ hdr.tcpHdr.ackNum ≤ tcb.sndNxt

instance (hdr : Header) (tcb : Tcb) : Decidable (Acknowledges hdr tcb) :=
  inferInstanceAs (Decidable (_ ∧ _))

def State.curr (s : State) : TcpState := currOf s.tcbMgr.newPacketD2 s.tcbMgr.tcbIn

/-- In this cycle only a valid acknowledgement completes a handshake or cancels a retransmission,
and a connection becomes established only through one. -/
structure Guarded (s : State) : Prop where
  handshake : ∀ hdr, s.processing = some hdr → ¬Acknowledges hdr s.tcbMgr.tcbIn →
    ¬(s.curr = .synRecv ∧ s.tcbMgr.update.tcb.tcpCurr = .established)
  cancel : ∀ hdr, s.processing = some hdr → ¬Acknowledges hdr s.tcbMgr.tcbIn →
    s.tcbMgr.update.cancelRto = false
  opened : s.tcbMgr.wbValidD = true → s.tcbMgr.update.tcb.tcpCurr = .established →
    s.curr = .established ∨
      ∃ hdr, s.processing = some hdr ∧ s.curr = .synRecv ∧ Acknowledges hdr s.tcbMgr.tcbIn

/-- A segment that has the ACK flag and no other one comes with a valid number. -/
def ValidAck (s : State) : Prop :=
  ∀ hdr, s.processing = some hdr → hdr.tcpCsr = .ACK → Acknowledges hdr s.tcbMgr.tcbIn

instance (s : State) : Decidable (ValidAck s) :=
  inferInstanceAs (Decidable (∀ hdr ∈ s.processing, _ → _))

/-- A TCB whose next state is its state, as every segment leaves it behind. -/
structure Steady (t : Tcb) : Prop where
  next : t.tcpNext = t.tcpCurr
  curr : t.tcpCurr ≠ .synSent

section

variable {t : Tcb} {new : Bool} {hdr : Header}

theorem tcpFsm_established {curr : TcpState} (hc : curr ≠ .synSent) {rx : TcpCsr}
    (h : (tcpFsm curr rx).tcpNext = .established) :
    curr = .established ∨ curr = .synRecv ∧ rx = .ACK := by
  obtain ⟨syn, ack, rst, fin⟩ := rx
  revert hc h
  cases curr <;> cases syn <;> cases ack <;> cases rst <;> cases fin <;> decide

theorem steady_ingress (h : Steady t) : Steady (ingress new hdr t).tcb :=
  ⟨rfl, (tcpFsm_next (currOf_ne h.curr new) hdr.tcpCsr).1⟩

theorem steady_egress (h : Steady t) : Steady (egress t).tcb := by
  have hn : t.tcpNext ≠ .synSent := by
    rw [h.next]
    exact h.curr
  simp only [egress]
  split_ifs
  · exact ⟨rfl, hn⟩
  · exact ⟨rfl, hn⟩
  · exact ⟨rfl, hn⟩

theorem egress_tcpCurr (h : Steady t) : (egress t).tcb.tcpCurr = t.tcpCurr := by
  rw [← h.next]
  simp only [egress]
  split_ifs
  · rfl
  · rfl
  · rfl

end

section

variable {s : State} {i : Input} {a : Addr} {hdr : Header}

theorem processing_eq_some : s.processing = some hdr ↔
    s.tcbMgr.wbValidD = true ∧ s.tcbMgr.pathD = true ∧ s.tcbMgr.headerOutD = hdr := by
  rw [State.processing, Option.ite_none_right_eq_some, Bool.and_eq_true, and_assoc, Option.some_inj]

theorem update_of_processing (h : s.processing = some hdr) :
    s.tcbMgr.update = ingress s.tcbMgr.newPacketD2 hdr s.tcbMgr.tcbIn := by
  obtain ⟨hv, hp, rfl⟩ := processing_eq_some.mp h
  rw [TcbMgr.State.update, if_pos hv, if_pos hp]

theorem update_of_tx (hv : s.tcbMgr.wbValidD = true) (hp : s.tcbMgr.pathD = false) :
    s.tcbMgr.update = egress s.tcbMgr.tcbIn := by
  rw [TcbMgr.State.update, if_pos hv, hp, if_neg Bool.false_ne_true]

theorem tcbOutTx_next (hv : s.tcbMgr.wbValidD = true) :
    (s.next i).tcbMgr.tcbOutTx = s.tcbMgr.update.tcb := if_pos hv

theorem tcbOutTx_run {u : ℕ → Input} {k : ℕ} (hv : (circuit.run u k).tcbMgr.wbValidD = true) :
    (circuit.run u (k + 1)).tcbMgr.tcbOutTx = (circuit.run u k).tcbMgr.update.tcb := tcbOutTx_next hv

theorem steady_update (hv : s.tcbMgr.wbValidD = true) (ht : Steady s.tcbMgr.tcbIn) :
    Steady s.tcbMgr.update.tcb := by
  cases hp : s.tcbMgr.pathD with
  | true =>
    rw [update_of_processing (processing_eq_some.mpr ⟨hv, hp, rfl⟩)]
    exact steady_ingress ht
  | false =>
    rw [update_of_tx hv hp]
    exact steady_egress ht

theorem guarded_iff (ht : s.tcbMgr.wbValidD = true → Steady s.tcbMgr.tcbIn)
    (hn : s.tcbMgr.newPacketD2 = true → s.tcbMgr.tcbIn.tcpCurr ≠ .established) :
    Guarded s ↔ ValidAck s := by
  constructor
  · intro h hdr hp hc
    by_contra hno
    have hcancel : (hdr.tcpCsr.ack && hdr.tcpCsr == .ACK) = false := by
      rw [← h.cancel hdr hp hno, update_of_processing hp]
      rfl
    rw [hc] at hcancel
    exact absurd hcancel (by decide)
  · intro h
    have hestablished : ∀ hdr, s.processing = some hdr →
        s.tcbMgr.update.tcb.tcpCurr = .established →
        s.curr = .established ∨ s.curr = .synRecv ∧ Acknowledges hdr s.tcbMgr.tcbIn := by
      intro hdr hp he
      have hv := (processing_eq_some.mp hp).1
      rw [update_of_processing hp] at he
      rcases tcpFsm_established (currOf_ne (ht hv).curr _) he with hc | ⟨hc, hack⟩
      · exact .inl hc
      · exact .inr ⟨hc, h hdr hp hack⟩
    refine ⟨?_, ?_, ?_⟩
    · rintro hdr hp hno ⟨hc, he⟩
      rcases hestablished hdr hp he with hc' | ⟨-, hack⟩
      · rw [hc] at hc'
        exact TcpState.noConfusion hc'
      · exact hno hack
    · intro hdr hp hno
      have hne : hdr.tcpCsr ≠ .ACK := fun hc ↦ hno (h hdr hp hc)
      rw [update_of_processing hp, ingress]
      simp only [beq_eq_false_iff_ne.mpr hne, Bool.and_false]
    · intro hv he
      cases hp : s.tcbMgr.pathD with
      | true =>
        have hproc := processing_eq_some.mpr ⟨hv, hp, rfl⟩
        exact (hestablished _ hproc he).imp_right fun h ↦ ⟨_, hproc, h⟩
      | false =>
        rw [update_of_tx hv hp, egress_tcpCurr (ht hv)] at he
        cases hnew : s.tcbMgr.newPacketD2 with
        | true => exact absurd he (hn hnew)
        | false =>
          rw [State.curr, hnew]
          exact .inl he

end

section

variable {u : ℕ → Input} {n : ℕ}

theorem blank_newPacketTcb (u : ℕ → Input) (n : ℕ) :
    TcbMgr.Blank (circuit.run u n).tcbMgr.newPacketTcb :=
  newPacketTcb_run ⟨rfl, rfl, rfl⟩ (fun _ _ ↦ id) u n

theorem steady_newPacketTcb (u : ℕ → Input) (n : ℕ) :
    Steady (circuit.run u n).tcbMgr.newPacketTcb := by
  obtain ⟨hc, hn, -⟩ := blank_newPacketTcb u n
  refine ⟨hn.trans hc.symm, ?_⟩
  rw [hc]
  exact TcpState.noConfusion

theorem steady_run (hr : ∀ k < n, ReadsWord (circuit.run u k) (u k)) (a : Addr) :
    Everywhere a Steady (circuit.run u n) :=
  everywhere_run ⟨rfl, by decide⟩ (steady_newPacketTcb u) hr fun _ _ hv _ ↦ steady_update hv

/-- Only valid acknowledgements complete handshakes and cancel retransmissions for exactly as long
as every segment with nothing but the ACK flag is one. -/
theorem guarded_run_iff (hr : ∀ k < n, ReadsWord (circuit.run u k) (u k)) :
    (∀ k < n, Guarded (circuit.run u k)) ↔ ∀ k < n, ValidAck (circuit.run u k) := by
  refine forall₂_congr fun k hk ↦ guarded_iff (fun hv ↦ ?_) fun hnew ↦ ?_
  · exact tcbIn_of_everywhere (steady_run (fun j hj ↦ hr j (by omega)) _)
      (steady_newPacketTcb u k) hv rfl
  · rw [TcbMgr.State.tcbIn, if_pos hnew, (blank_newPacketTcb u k).1]
    exact TcpState.noConfusion

end

def acknowledged (ack : BitVec 32) (n : ℕ) : Input :=
  if n = 0 then { h2cTdata := Datapath.segment 1000 0 2, h2cTvalid := true }
  else if n = 7 then { h2cTdata := Datapath.segment 1001 ack 16, h2cTvalid := true }
  else {}

theorem acknowledged_guarded : (circuit.run (acknowledged 2) 11).curr = .synRecv ∧
    ∀ k < 12, Guarded (circuit.run (acknowledged 2) k) := by
  have hrun : (circuit.run (acknowledged 2) 11).curr = .synRecv ∧
      ∀ k < 12, ReadsWord (circuit.run (acknowledged 2) k) (acknowledged 2 k) ∧
        ValidAck (circuit.run (acknowledged 2) k) := by decide +kernel
  exact ⟨hrun.1, (guarded_run_iff fun k hk ↦ (hrun.2 k hk).1).mpr fun k hk ↦ (hrun.2 k hk).2⟩

def Overhasty (s : State) : Prop :=
  s.processing = some s.tcbMgr.headerOutD ∧ ¬Acknowledges s.tcbMgr.headerOutD s.tcbMgr.tcbIn ∧
    s.curr = .synRecv ∧ s.tcbMgr.update.tcb.tcpCurr = .established

instance (s : State) : Decidable (Overhasty s) := inferInstanceAs (Decidable (_ ∧ _ ∧ _ ∧ _))

/-- The number 99 acknowledges nothing that was sent, but it completes the handshake. -/
theorem acknowledged_not_guarded :
    (∀ k < 12, ReadsWord (circuit.run (acknowledged 99) k) (acknowledged 99 k)) ∧
      ¬∀ k < 12, Guarded (circuit.run (acknowledged 99) k) := by
  have hrun : (∀ k < 12, ReadsWord (circuit.run (acknowledged 99) k) (acknowledged 99 k)) ∧
      Overhasty (circuit.run (acknowledged 99) 11) := by decide +kernel
  obtain ⟨hr, hp, hno, hc, he⟩ := hrun
  exact ⟨hr, fun h ↦ (h 11 (by omega)).handshake _ hp hno ⟨hc, he⟩⟩

end QdmaTrafficGen.TopLevel
