import QdmaTrafficGen.TopLevel
import QdmaTrafficGen.Transmission
import Mathlib.Data.Nat.Find

namespace QdmaTrafficGen.TopLevel

open Clocked TcpCtrl

def SynAck (s : State) (a : Addr) (e : Entry) : Prop :=
  s.rto.out s.rtoInput = some e ∧ e.addr = a ∧ e.tcb.csrCurr = .SYN_ACK

def seqNum (s : State) : BitVec 32 := s.c2hTdata.extractLsb' 176 32

def Answers (s : State) (a : Addr) : Prop :=
  s.tcbMgr.wbValidD = true ∧ s.tcbMgr.pathD = true ∧ s.tcbMgr.wbAddrD = a ∧
    (tcpFsm (currOf s.tcbMgr.newPacketD2 s.tcbMgr.tcbIn)
      s.tcbMgr.headerOutD.tcpCsr).tcpCsrTx = .SYN_ACK

instance (s : State) (a : Addr) : Decidable (Answers s a) := inferInstanceAs (Decidable (_ ∧ _ ∧ _ ∧ _))

/-- The TCB of an open connection whose SYN-ACK has not been sent. -/
def Unsent (s : State) : Prop :=
  s.tcbMgr.newPacketD2 = false ∧ s.tcbMgr.tcbIn.tcpCurr = .synRecv ∧
    s.tcbMgr.tcbIn.nextSendTime = 0

instance (s : State) : Decidable (Unsent s) := inferInstanceAs (Decidable (_ ∧ _ ∧ _))

/-- What the TCB memory shows of a word that is being written is its old or its new contents. -/
def ReadsWord (s : State) (i : Input) : Prop :=
  let wb := s.tcbMgr.wbOutput (s.tcbMgrInput i)
  s.tcbMgr.tcpCtrlValid = true → wb.valid = true → s.tcbMgr.tcpCtrlAddr = wb.addr →
    i.collideTcb = s.tcbMgr.tcb wb.addr ∨ i.collideTcb = s.tcbMgr.dina

instance (s : State) (i : Input) : Decidable (ReadsWord s i) :=
  inferInstanceAs (Decidable (_ → _ → _ → _))

/-- Every copy of the TCB of `a` satisfies `P`. -/
structure Everywhere (a : Addr) (P : Tcb → Prop) (s : State) : Prop where
  stored : P (s.tcbMgr.tcb a)
  loaded : s.tcbMgr.wbValidD = true → s.tcbMgr.wbAddrD = a → P s.tcbMgr.tcbBOut
  sent : s.tcbMgr.tcpCtrlAddr = a → P s.tcbMgr.tcbOutTx
  queued : ∀ e ∈ s.rto.priorityQueue.contents, e.addr = a → P e.tcb
  waiting : ∀ x e, s.rto.timerWheel x = some e → e.addr = a → P e.tcb

theorem Everywhere.mono {a : Addr} {P Q : Tcb → Prop} {s : State} (h : Everywhere a P s)
    (hPQ : ∀ t, P t → Q t) : Everywhere a Q s :=
  ⟨hPQ _ h.stored, fun hv ha ↦ hPQ _ (h.loaded hv ha), fun ha ↦ hPQ _ (h.sent ha),
    fun e he ha ↦ hPQ _ (h.queued e he ha), fun x e he ha ↦ hPQ _ (h.waiting x e he ha)⟩

/-- A TCB that knows of no SYN. -/
structure Fresh (t : Tcb) : Prop where
  curr : t.tcpCurr ≠ .synRecv ∧ t.tcpCurr ≠ .synSent
  next : t.tcpNext ≠ .synRecv ∧ t.tcpNext ≠ .synSent
  csr : t.csrCurr ≠ .SYN_ACK

/-- A TCB from which a SYN-ACK goes out with sequence number `v`, if one goes out. -/
structure Agreed (v : BitVec 32) (t : Tcb) : Prop where
  curr : t.tcpCurr ≠ .synSent
  next : t.tcpNext ≠ .synSent
  seq : t.nextSendTime = 0 → t.tcpCurr = .synRecv ∨ t.csrCurr = .SYN_ACK → t.sndNxt = v

section

variable {t : Tcb} {v : BitVec 32} {new : Bool} {hdr : Header}

theorem fresh_zero : Fresh 0 := ⟨by decide, by decide, by decide⟩

theorem Fresh.agreed (h : Fresh t) (v : BitVec 32) : Agreed v t := by
  refine ⟨h.curr.2, h.next.2, fun _ hs ↦ ?_⟩
  rcases hs with hs | hs
  · exact absurd hs h.curr.1
  · exact absurd hs h.csr

theorem tcpFsm_next {curr : TcpState} (hc : curr ≠ .synSent) (rx : TcpCsr) :
    (tcpFsm curr rx).tcpNext ≠ .synSent ∧
      ((tcpFsm curr rx).tcpNext = .synRecv → (tcpFsm curr rx).tcpCsrTx = .SYN_ACK) := by
  obtain ⟨syn, ack, rst, fin⟩ := rx
  revert hc
  cases curr <;> cases syn <;> cases ack <;> cases rst <;> cases fin <;> decide

theorem currOf_ne (h : t.tcpCurr ≠ .synSent) (new : Bool) : currOf new t ≠ .synSent := by
  cases new
  · exact h
  · exact TcpState.noConfusion

theorem fresh_ingress (hc : t.tcpCurr ≠ .synSent)
    (hn : (tcpFsm (currOf new t) hdr.tcpCsr).tcpCsrTx ≠ .SYN_ACK) :
    Fresh (ingress new hdr t).tcb := by
  obtain ⟨hs, hr⟩ := tcpFsm_next (currOf_ne hc new) hdr.tcpCsr
  have hr' := fun h ↦ hn (hr h)
  refine ⟨⟨hr', hs⟩, ⟨hr', hs⟩, ?_⟩
  simp only [ingress]
  split
  · decide
  · exact hn

theorem agreed_answer (hc : t.tcpCurr ≠ .synSent) (hv : t.sndNxt = v) :
    Agreed v (ingress new hdr t).tcb := by
  obtain ⟨hs, -⟩ := tcpFsm_next (currOf_ne hc new) hdr.tcpCsr
  exact ⟨hs, hs, fun _ _ ↦ hv⟩

theorem fresh_egress (h : Fresh t) : Fresh (egress t).tcb := by
  simp only [egress]
  split_ifs
  · exact ⟨h.next, h.next, h.csr⟩
  · exact ⟨h.next, h.next, (by decide : TcpCsr.RST ≠ .SYN_ACK)⟩
  · exact ⟨h.next, h.next, h.csr⟩

theorem agreed_egress (h : Agreed v t) : Agreed v (egress t).tcb := by
  simp only [egress]
  split_ifs with h0
  · exact ⟨h.next, h.next, fun h1 ↦ absurd h1 (by decide : (1 : BitVec 6) ≠ 0)⟩
  · exact ⟨h.next, h.next, fun h1 ↦ absurd h1 h0⟩
  · exact ⟨h.next, h.next, fun h1 ↦ absurd h1 (by decide : (1 : BitVec 6) ≠ 0)⟩

theorem fresh_assignNew (h : Fresh t) (hdr : Header) : Fresh (assignNew t hdr) :=
  ⟨h.curr, h.next, by simp [assignNew, TcpCsr.none, TcpCsr.SYN_ACK]⟩

end

theorem newPacketTcb_run {P : Tcb → Prop} (h0 : P 0) (hP : ∀ t hdr, P t → P (assignNew t hdr))
    (u : ℕ → Input) (n : ℕ) : P (circuit.run u n).tcbMgr.newPacketTcb :=
  Circuit.invariant (I := fun s : State ↦ P s.tcbMgr.newPacketTcb) h0
    (fun _ _ ↦ TcbMgr.newPacketTcb_next hP) n

theorem fresh_newPacketTcb (u : ℕ → Input) (n : ℕ) : Fresh (circuit.run u n).tcbMgr.newPacketTcb :=
  newPacketTcb_run fresh_zero (fun _ hdr h ↦ fresh_assignNew h hdr) u n

section

variable {s : State} {i : Input} {a : Addr} {P Q : Tcb → Prop}

theorem everywhere_next (h0 : P 0) (hPQ : ∀ t, P t → Q t) (h : Everywhere a P s)
    (hr : ReadsWord s i)
    (hu : s.tcbMgr.wbValidD = true → s.tcbMgr.wbAddrD = a → Q s.tcbMgr.update.tcb) :
    Everywhere a Q (s.next i) := by
  have hdina : s.tcbMgr.tcpCtrlAddr = a → P s.tcbMgr.dina := by
    intro ha
    simp only [TcbMgr.State.dina]
    split
    · exact h0
    · exact h.sent ha
  have hin : ∀ e, e = (⟨s.tcbMgr.tcpCtrlAddr, s.tcbMgr.tcbOutTx⟩ : Entry) → e.addr = a → Q e.tcb := by
    rintro e rfl ha
    exact hPQ _ (h.sent ha)
  refine ⟨?_, ?_, ?_, ?_, ?_⟩
  · simp only [State.next, TcbMgr.State.next]
    split
    · by_cases ha : a = s.tcbMgr.tcpCtrlAddr
      · subst ha
        rw [Function.update_self]
        exact hPQ _ (hdina rfl)
      · rw [Function.update_of_ne ha]
        exact hPQ _ h.stored
    · exact hPQ _ h.stored
  · simp only [State.next, TcbMgr.State.next]
    intro hv ha
    subst ha
    split
    case isFalse => exact hPQ _ h.stored
    case isTrue hc =>
      rcases hr hc.1 hv hc.2 with hold | hnew
      · rw [show (s.tcbMgrInput i).collide = i.collideTcb from rfl, hold]
        exact hPQ _ h.stored
      · rw [show (s.tcbMgrInput i).collide = i.collideTcb from rfl, hnew]
        exact hPQ _ (hdina hc.2)
  · simp only [State.next, TcbMgr.State.next]
    split
    case isTrue hv => exact hu hv
    case isFalse => exact fun ha ↦ hPQ _ (h.sent ha)
  · intro e he ha
    rcases Fifo.mem_next he with he | he
    · exact hPQ _ (h.queued e he ha)
    · refine hin e ?_ ha
      simp only [Rto.hpDin] at he
      split at he
      · exact (Option.some.inj he).symm
      · simp at he
  · intro x e he ha
    rcases Rto.timerWheel_next he with he | ⟨he, -⟩
    · exact hPQ _ (h.waiting x e he ha)
    · exact hin e he ha

theorem tcbIn_of_everywhere (h : Everywhere a P s) (ho : P s.tcbMgr.newPacketTcb)
    (hv : s.tcbMgr.wbValidD = true) (ha : s.tcbMgr.wbAddrD = a) : P s.tcbMgr.tcbIn := by
  simp only [TcbMgr.State.tcbIn]
  split
  · exact ho
  · exact h.loaded hv ha

/-- A property of TCBs that `tcp_ctrl` keeps holds of all copies throughout a run. -/
theorem everywhere_run {u : ℕ → Input} {n : ℕ} (h0 : P 0)
    (ho : ∀ k, P (circuit.run u k).tcbMgr.newPacketTcb)
    (hr : ∀ k < n, ReadsWord (circuit.run u k) (u k))
    (hu : ∀ k < n, (circuit.run u k).tcbMgr.wbValidD = true → (circuit.run u k).tcbMgr.wbAddrD = a →
      P (circuit.run u k).tcbMgr.tcbIn → P (circuit.run u k).tcbMgr.update.tcb) :
    Everywhere a P (circuit.run u n) := by
  induction n with
  | zero => exact ⟨h0, fun _ _ ↦ h0, fun _ ↦ h0, by simp [circuit], by simp [circuit]⟩
  | succ n ih =>
    have h := ih (fun k hk ↦ hr k (by omega)) fun k hk ↦ hu k (by omega)
    refine everywhere_next h0 (fun _ ↦ id) h (hr n (by omega)) fun hv ha ↦ ?_
    exact hu n (by omega) hv ha (tcbIn_of_everywhere h (ho n) hv ha)

theorem fresh_update (hv : s.tcbMgr.wbValidD = true) (ha : s.tcbMgr.wbAddrD = a)
    (ht : Fresh s.tcbMgr.tcbIn) (hn : ¬Answers s a) : Fresh s.tcbMgr.update.tcb := by
  simp only [TcbMgr.State.update, hv, if_true]
  split
  case isTrue hp => exact fresh_ingress ht.curr.2 fun hs ↦ hn ⟨hv, hp, ha, hs⟩
  case isFalse => exact fresh_egress ht

theorem agreed_first (h : Everywhere a Fresh s) (ho : Fresh s.tcbMgr.newPacketTcb)
    (hr : ReadsWord s i) (hn : Answers s a) :
    Everywhere a (Agreed s.tcbMgr.tcbIn.sndNxt) (s.next i) := by
  refine everywhere_next fresh_zero (fun _ ht ↦ ht.agreed _) h hr fun hv ha ↦ ?_
  have ht := tcbIn_of_everywhere h ho hv ha
  simp only [TcbMgr.State.update, hv, hn.2.1, if_true]
  exact agreed_answer ht.curr.2 rfl

theorem agreed_next {v : BitVec 32} (h : Everywhere a (Agreed v) s)
    (ho : Fresh s.tcbMgr.newPacketTcb) (hr : ReadsWord s i) (hn : Answers s a → Unsent s) :
    Everywhere a (Agreed v) (s.next i) := by
  refine everywhere_next (fresh_zero.agreed v) (fun _ ↦ id) h hr fun hv ha ↦ ?_
  have ht := tcbIn_of_everywhere h (ho.agreed v) hv ha
  simp only [TcbMgr.State.update, hv, if_true]
  split
  case isFalse => exact agreed_egress ht
  case isTrue hp =>
    by_cases hs : Answers s a
    · obtain ⟨-, hc, h0⟩ := hn hs
      exact agreed_answer ht.curr (ht.seq h0 (.inl hc))
    · exact (fresh_ingress ht.curr fun h' ↦ hs ⟨hv, hp, ha, h'⟩).agreed v

theorem out_source {e : Entry} (h : s.rto.out s.rtoInput = some e) :
    e ∈ s.rto.priorityQueue.contents ∨ s.rto.timerWheelVal = some e := by
  cases hv : s.rto.hpValid with
  | false =>
    rw [Rto.out_wheel_only rfl hv] at h
    split at h
    · exact .inr h
    · simp at h
  | true =>
    rw [Rto.out_of_hpValid rfl hv] at h
    by_cases hq : s.rto.overQuota = true → s.rto.timerWheelVal = none
    · rw [Rto.arbiter_queue rfl hv hq] at h
      rw [← Option.some.inj h]
      exact .inl (List.mem_of_head? (Rto.head_of_hpValid hv))
    · obtain ⟨h4, hw⟩ := Classical.not_imp.mp hq
      obtain ⟨f, hf⟩ := Option.ne_none_iff_exists'.mp hw
      rw [Rto.arbiter_wheel rfl hf h4] at h
      exact .inr (hf.trans h)

theorem seqNum_next {e : Entry} (h : SynAck s a e) : seqNum (s.next i) = e.tcb.sndNxt := by
  obtain ⟨ho, -, hc⟩ := h
  simp only [Rto.State.out] at ho
  split at ho
  case isFalse => simp at ho
  case isTrue hv =>
    have he : s.tcbRtoOut = e := Option.some.inj ho
    have hany : s.txInput.tcpCsr.any = true := by
      simp only [State.txInput, he, hc]
      rfl
    rw [← he]
    exact Datapath.TxInput.seqNum_tdataNext hany hv s.c2hTdata

end

section

variable {u : ℕ → Input} {a : Addr} {n : ℕ}

theorem fresh_run {m : ℕ} (hm : m ≤ n) (hr : ∀ k < n, ReadsWord (circuit.run u k) (u k))
    (hno : ∀ k < m, ¬Answers (circuit.run u k) a) : Everywhere a Fresh (circuit.run u m) :=
  everywhere_run fresh_zero (fresh_newPacketTcb u) (fun k hk ↦ hr k (by omega))
    fun k hk hv ha ht ↦ fresh_update hv ha ht (hno k hk)

theorem agreed_run (hr : ∀ k < n, ReadsWord (circuit.run u k) (u k))
    (hd : ∀ j k, j < k → k < n → Answers (circuit.run u j) a → Answers (circuit.run u k) a →
      Unsent (circuit.run u k)) :
    ∃ v, ∀ k ≤ n, Everywhere a (Agreed v) (circuit.run u k) := by
  by_cases hex : ∃ m, m < n ∧ Answers (circuit.run u m) a
  · obtain ⟨hmn, hm⟩ := Nat.find_spec hex
    have hmin : ∀ k < Nat.find hex, ¬Answers (circuit.run u k) a := fun k hk hk' ↦
      Nat.find_min hex hk ⟨by omega, hk'⟩
    generalize Nat.find hex = m at hmn hm hmin
    refine ⟨(circuit.run u m).tcbMgr.tcbIn.sndNxt, fun k hk ↦ ?_⟩
    rcases Nat.lt_or_ge m k with hmk | hmk
    · induction k, hmk using Nat.le_induction with
      | base =>
        exact agreed_first (fresh_run hmn.le hr hmin) (fresh_newPacketTcb u m) (hr m hmn) hm
      | succ k hmk ih =>
        exact agreed_next (ih (by omega)) (fresh_newPacketTcb u k) (hr k (by omega))
          fun hk' ↦ hd m k hmk (by omega) hm hk'
    · exact (fresh_run hk hr fun j hj ↦ hmin j (by omega)).mono fun t ht ↦ ht.agreed _
  · refine ⟨0, fun k hk ↦ (fresh_run hk hr fun j hj hj' ↦ hex ⟨j, by omega, hj'⟩).mono ?_⟩
    exact fun t ht ↦ ht.agreed _

theorem sorted_rto (u : ℕ → Input) (n : ℕ) : Rto.Sorted (circuit.run u n).rto :=
  Circuit.invariant (I := fun s : State ↦ Rto.Sorted s.rto)
    ⟨by simp [circuit], by simp [circuit]⟩ (fun s _ h ↦ Rto.sorted_next s.rto _ h) n

/-- As long as the SYN-ACK of `a` is not retransmitted by the timer, and no further SYN is answered
once it has been sent, all SYN-ACK frames of `a` carry the same sequence number. -/
theorem synAck_seqNum (hr : ∀ k < n, ReadsWord (circuit.run u k) (u k))
    (ht : ∀ k < n, ∀ e, SynAck (circuit.run u k) a e → (circuit.run u k).rto.timerWheelVal ≠ some e)
    (hd : ∀ j k, j < k → k < n → Answers (circuit.run u j) a → Answers (circuit.run u k) a →
      Unsent (circuit.run u k)) {j k : ℕ} (hj : j < n) (hk : k < n) {e f : Entry}
    (he : SynAck (circuit.run u j) a e) (hf : SynAck (circuit.run u k) a f) :
    seqNum (circuit.run u (j + 1)) = seqNum (circuit.run u (k + 1)) := by
  obtain ⟨v, hv⟩ := agreed_run hr hd
  have hseq : ∀ i < n, ∀ g, SynAck (circuit.run u i) a g → seqNum (circuit.run u (i + 1)) = v := by
    intro i hi g hg
    rw [run_succ, seqNum_next hg]
    have hq := (out_source hg.1).resolve_right (ht i hi g hg)
    have h0 : g.tcb.nextSendTime = 0 := by
      have hs := (sorted_rto u i).1 g hq
      simpa [Rto.timed, hg.2.2, TcpCsr.SYN_ACK, TcpCsr.RST] using hs
    exact ((hv i hi.le).queued g hq hg.2.1).seq h0 (.inr hg.2.2)
  rw [hseq j hj e he, hseq k hk f hf]

end

def duplicate (gap n : ℕ) : Input :=
  { h2cTdata := Datapath.segment 1000 0 2, h2cTvalid := n == 0 || n == gap }

def Sends (u : ℕ → Input) (k : ℕ) (v : BitVec 32) : Prop :=
  ((circuit.run u k).rto.out (circuit.run u k).rtoInput).map
    (fun e ↦ (e.addr, e.tcb.csrCurr, e.tcb.sndNxt)) = some (0, .SYN_ACK, v)

instance (u : ℕ → Input) (k : ℕ) (v : BitVec 32) : Decidable (Sends u k v) :=
  inferInstanceAs (Decidable (_ = _))

theorem Sends.synAck {u : ℕ → Input} {k : ℕ} {v : BitVec 32} (h : Sends u k v) :
    ∃ e, SynAck (circuit.run u k) 0 e ∧ seqNum (circuit.run u (k + 1)) = v := by
  obtain ⟨e, he, hm⟩ := Option.map_eq_some_iff.mp h
  obtain ⟨ha, hc, hv⟩ : e.addr = 0 ∧ e.tcb.csrCurr = .SYN_ACK ∧ e.tcb.sndNxt = v := by
    simpa only [Prod.mk.injEq] using hm
  exact ⟨e, ⟨he, ha, hc⟩, by rw [run_succ, seqNum_next ⟨he, ha, hc⟩, hv]⟩

theorem duplicate_seqNum :
    seqNum (circuit.run (duplicate 3) (6 + 1)) = seqNum (circuit.run (duplicate 3) (9 + 1)) := by
  obtain ⟨hrun, hj, hk⟩ : (∀ k < 10, ReadsWord (circuit.run (duplicate 3) k) (duplicate 3 k) ∧
      (circuit.run (duplicate 3) k).rto.timerWheelVal = none ∧
      (Answers (circuit.run (duplicate 3) k) 0 →
        4 ≤ k ∧ (4 < k → Unsent (circuit.run (duplicate 3) k)))) ∧
      Sends (duplicate 3) 6 1 ∧ Sends (duplicate 3) 9 1 := by decide +kernel
  obtain ⟨e, he, -⟩ := hj.synAck
  obtain ⟨f, hf, -⟩ := hk.synAck
  refine synAck_seqNum (n := 10) (fun k hk ↦ (hrun k hk).1) (fun k hk e _ ↦ ?_) ?_
    (by omega) (by omega) he hf
  · simp [(hrun k hk).2.1]
  · intro j k hjk hk hj ha
    exact ((hrun k hk).2.2 ha).2 (by have := ((hrun j (by omega)).2.2 hj).1; omega)

/-- A duplicate that comes after the SYN-ACK has been sent is answered with the next sequence
number, although the connection has not been invalidated. -/
theorem duplicate_not_seqNum : (∀ k < 14, (circuit.run (duplicate 7) k).tcbMgr.invalidate = false) ∧
    ¬∀ j < 14, ∀ k < 14, ∀ e f, SynAck (circuit.run (duplicate 7) j) 0 e →
      SynAck (circuit.run (duplicate 7) k) 0 f →
      seqNum (circuit.run (duplicate 7) (j + 1)) = seqNum (circuit.run (duplicate 7) (k + 1)) := by
  obtain ⟨hno, hj, hk⟩ : (∀ k < 14, (circuit.run (duplicate 7) k).tcbMgr.invalidate = false) ∧
      Sends (duplicate 7) 6 1 ∧ Sends (duplicate 7) 13 2 := by decide +kernel
  refine ⟨hno, fun h ↦ ?_⟩
  obtain ⟨e, he, hev⟩ := hj.synAck
  obtain ⟨f, hf, hfv⟩ := hk.synAck
  have heq := h 6 (by omega) 13 (by omega) e f he hf
  rw [hev, hfv] at heq
  exact absurd heq (by decide)

end QdmaTrafficGen.TopLevel
