import QdmaTrafficGen.Replies
import QdmaTrafficGen.SendWindow

namespace QdmaTrafficGen.TopLevel

open Clocked TcpCtrl

/-- The packet that is popped in cycle `t` is alone in the pipeline. -/
structure Alone (u : ℕ → Input) (t : ℕ) : Prop where
  pop : (circuit.run u t).pop = true
  only : (circuit.run u t).headerQueue.contents.length = 1
  silent : (u t).h2cTvalid = false ∧ (u (t + 1)).h2cTvalid = false
  settled : (circuit.run u t).tcbMgr.pending = []
  quiet : ((circuit.run u t).tcbMgr.wbOutput ((circuit.run u t).tcbMgrInput (u t))).valid = false ∧
    ((circuit.run u (t + 1)).tcbMgr.wbOutput ((circuit.run u (t + 1)).tcbMgrInput (u (t + 1)))).valid =
      false
  queue : (circuit.run u t).rto.priorityQueue.contents = []

/-- The replies to the packet that is popped in cycle `t` go back to its sender. -/
def RepliesBack (u : ℕ → Input) (t : ℕ) : Prop :=
  ∀ h ∈ replies u (t + 3), h.endpoints = (circuit.run u t).headerOut.endpoints.swap

/-- The packet opens a connection, gets no reply, or belongs to the connection of the TCB that is
stored at the address that the cache returns. -/
def BelongsThere (u : ℕ → Input) (t : ℕ) : Prop :=
  let hdr := (circuit.run u t).headerOut
  let tcb := (circuit.run u t).tcbMgr.tcb (circuit.run u (t + 2)).cache.tcbAddr
  newPacket ((circuit.run u (t + 1)).cache.readMiss ((circuit.run u (t + 1)).cacheInput (u (t + 1)))) hdr ∨
    hdr.tcpCsr = .ACK ∨ (reply tcb.tcpCurr hdr.tcpCsr).1 = .none ∨ tcb.endpoints = hdr.endpoints

section

variable {s : State} {i : Input} {t : Tcb} {new : Bool} {hdr : Header}

theorem swap_inj {e f : Endpoints} (h : e.swap = f.swap) : e = f := congrArg Endpoints.swap h

theorem any_iff {c : TcpCsr} : c.any = true ↔ c ≠ .none := by
  obtain ⟨syn, ack, rst, fin⟩ := c
  cases syn <;> cases ack <;> cases rst <;> cases fin <;> decide

theorem endpoints_ingress : (ingress new hdr t).tcb.endpoints = t.endpoints := rfl

theorem refuses_known (h : refuses false hdr.tcpCsr t = true) (hc : hdr.tcpCsr ≠ .ACK) :
    (reply t.tcpCurr hdr.tcpCsr).1 ≠ .none := by
  simp only [refuses, Bool.and_eq_true, beq_iff_eq] at h
  obtain ⟨⟨hack, hs⟩, -⟩ := h
  rw [show t.tcpCurr = .synRecv from hs]
  have hr : (reply .synRecv hdr.tcpCsr).1 = .RST := by
    by_contra hne
    exact hc ((SendWindow.reply_synRecv hack).mp hne)
  rw [hr]
  decide

theorem csrCurr_known (hc : hdr.tcpCsr ≠ .ACK) :
    (ingress false hdr t).tcb.csrCurr.any = true ↔ (reply t.tcpCurr hdr.tcpCsr).1 ≠ .none := by
  simp only [ingress]
  split
  case isTrue hr => exact iff_of_true rfl (refuses_known hr hc)
  case isFalse => exact any_iff

theorem queue_stays (hq : s.rto.priorityQueue.contents = [])
    (hv : s.tcbMgr.tcpCtrlValid = false) : (s.next i).rto.priorityQueue.contents = [] := by
  have hin : Rto.hpDin s.rtoInput = none := by
    rw [Rto.hpDin, show s.rtoInput.write = false from hv, Bool.and_false, Bool.false_and]
    rfl
  simp only [State.next, Rto.State.next, hin, Fifo.next_none_of_nil hq]

end

section

variable {u : ℕ → Input} {t : ℕ}

theorem Alone.contents (h : Alone u t) : (circuit.run u (t + 1)).headerQueue.contents = [] ∧
    (circuit.run u (t + 2)).headerQueue.contents = [] := by
  have h₁ : (circuit.run u (t + 1)).headerQueue.contents = [] := by
    obtain ⟨hdr, hc⟩ := List.length_eq_one_iff.mp h.only
    have hin : headerIn (u t) = none := if_neg (Bool.eq_false_iff.mp h.silent.1)
    simp only [run_succ, State.next, hin, Fifo.next_none, h.pop, hc, if_true, List.tail_cons]
  refine ⟨h₁, ?_⟩
  have hin : headerIn (u (t + 1)) = none := if_neg (Bool.eq_false_iff.mp h.silent.2)
  rw [run_succ]
  simp only [State.next, hin, Fifo.next_none_of_nil h₁]

theorem Alone.asItself (h : Alone u t) : AsItself u t :=
  (asItself_iff u h.pop).mpr
    ⟨fun _ ↦ Fifo.dout_of_nil h.contents.1, fun _ ↦ Fifo.dout_of_nil h.contents.2⟩

theorem Alone.unwritten (h : Alone u t) : (circuit.run u t).tcbMgr.tcpCtrlValid = false ∧
    (circuit.run u (t + 1)).tcbMgr.tcpCtrlValid = false ∧
    (circuit.run u (t + 2)).tcbMgr.tcpCtrlValid = false ∧
    (circuit.run u (t + 3)).tcbMgr.tcpCtrlValid = false := by
  obtain ⟨hc, hw⟩ := List.append_eq_nil_iff.mp h.settled
  refine ⟨?_, ?_, h.quiet.1, h.quiet.2⟩
  · simpa using hc
  · show (circuit.run u t).tcbMgr.wbValidD = false
    simpa using hw

theorem Alone.processing (h : Alone u t) :
    (circuit.run u (t + 3)).processing = some (circuit.run u t).headerOut := by
  have ha := h.asItself
  rw [processing_eq_some]
  exact ⟨ha.ingress.1, ha.ingress.2, ha.processed⟩

theorem Alone.newPacketD2 (h : Alone u t) : (circuit.run u (t + 3)).tcbMgr.newPacketD2 =
    newPacket ((circuit.run u (t + 1)).cache.readMiss ((circuit.run u (t + 1)).cacheInput (u (t + 1))))
      (circuit.run u t).headerOut := by
  rw [← h.asItself.miss]
  rfl

theorem Alone.tcbIn_known (h : Alone u t) (hn : (circuit.run u (t + 3)).tcbMgr.newPacketD2 = false) :
    (circuit.run u (t + 3)).tcbMgr.tcbIn =
      (circuit.run u t).tcbMgr.tcb (circuit.run u (t + 2)).cache.tcbAddr := by
  obtain ⟨hc, hc₁, hc₂, -⟩ := h.unwritten
  have htcb : (circuit.run u (t + 2)).tcbMgr.tcb = (circuit.run u t).tcbMgr.tcb := by
    rw [run_succ, State.next, TcbMgr.State.next, hc₁, run_succ, State.next, TcbMgr.State.next, hc]
    rfl
  rw [TcbMgr.State.tcbIn, hn, if_neg Bool.false_ne_true, ← h.asItself.addr, ← htcb]
  refine if_neg fun hcol ↦ ?_
  rw [hc₂] at hcol
  exact Bool.false_ne_true hcol.1

theorem Alone.tcbIn_new (h : Alone u t) (hn : (circuit.run u (t + 3)).tcbMgr.newPacketD2 = true) :
    (circuit.run u (t + 3)).tcbMgr.tcbIn.endpoints = (circuit.run u t).headerOut.endpoints := by
  have hd : (circuit.run u (t + 2)).tcbMgr.newPacketD = true := hn
  rw [TcbMgr.State.tcbIn, if_pos hn, ← h.asItself.opened, run_succ, State.next, TcbMgr.State.next,
    if_pos hd]
  rfl

theorem Alone.queue_room (h : Alone u t) :
    (circuit.run u (t + 4)).rto.priorityQueue.full 32 = false := by
  obtain ⟨hc, hc₁, hc₂, hc₃⟩ := h.unwritten
  have hq : (circuit.run u (t + 4)).rto.priorityQueue.contents = [] :=
    queue_stays (queue_stays (queue_stays (queue_stays h.queue hc) hc₁) hc₂) hc₃
  rw [Fifo.full, hq]
  rfl

/-- The replies to a packet that is alone in the pipeline go back to its sender exactly if it opens
a connection, gets no reply, or comes from the peer of the TCB that it is processed with. -/
theorem repliesBack_iff (h : Alone u t) : RepliesBack u t ↔ BelongsThere u t := by
  have hp := h.processing
  have hu := update_of_processing hp
  cases hn : (circuit.run u (t + 3)).tcbMgr.newPacketD2 with
  | true =>
    refine iff_of_true (fun r hr ↦ ?_) (.inl (h.newPacketD2.symm.trans hn))
    rw [(reply_spec hr).2.1, hu, endpoints_ingress, h.tcbIn_new hn]
  | false =>
    rw [hn, h.tcbIn_known hn] at hu
    constructor
    · intro hback
      by_contra hno
      obtain ⟨-, hc, hr, he⟩ : _ ∧ _ ∧ _ ∧ _ := by simpa only [BelongsThere, not_or] using hno
      have hcancel : (circuit.run u (t + 3)).tcbMgr.update.cancelRto = false := by
        rw [hu, ingress]
        simp only [beq_eq_false_iff_ne.mpr hc, Bool.and_false]
      have hany : (circuit.run u (t + 3)).tcbMgr.update.tcb.csrCurr.any = true := by
        rw [hu]
        exact (csrCurr_known hc).mpr hr
      have ht : Rto.timed (circuit.run u (t + 3)).tcbMgr.update.tcb = false := by
        rw [hu]
        rfl
      obtain ⟨r, hr⟩ := exists_reply (processing_eq_some.mp hp).1 hcancel ht hany h.queue_room
      have heq := hback r hr
      rw [(reply_spec hr).2.1, hu, endpoints_ingress] at heq
      exact he (swap_inj heq)
    · intro hb r hr
      have hc := reply_not_ack hp hr
      obtain ⟨-, he, hcsr, hany⟩ := reply_spec hr
      rw [hu] at he hcsr
      rcases hb with hnew | hack | hnone | hends
      · rw [← h.newPacketD2, hn] at hnew
        exact absurd hnew Bool.false_ne_true
      · exact absurd hack hc
      · rw [hcsr] at hany
        exact absurd hnone ((csrCurr_known hc).mp hany)
      · rw [he, endpoints_ingress, hends]

end

def lone (n : ℕ) : Input := { h2cTdata := Datapath.segment 1000 0 2, h2cTvalid := n == 0 }

theorem lone_repliesBack : RepliesBack lone 1 := by
  have h : Alone lone 1 := ⟨by decide +kernel, by decide +kernel, by decide +kernel,
    by decide +kernel, by decide +kernel, by decide +kernel⟩
  exact (repliesBack_iff h).mpr (.inl (by decide +kernel))

def stray (n : ℕ) : Input :=
  { h2cTdata := Datapath.segment 1000 0 1 ||| BitVec.twoPow 512 272, h2cTvalid := n == 0 }

/-- The FIN is answered with a reset to the peer of a TCB that was never written. -/
theorem stray_not_repliesBack : Alone stray 1 ∧ ¬RepliesBack stray 1 := by
  have h : Alone stray 1 := ⟨by decide +kernel, by decide +kernel, by decide +kernel,
    by decide +kernel, by decide +kernel, by decide +kernel⟩
  obtain ⟨hv, hc, ht, ha, hne⟩ : (circuit.run stray 4).tcbMgr.wbValidD = true ∧
      (circuit.run stray 4).tcbMgr.update.cancelRto = false ∧
      Rto.timed (circuit.run stray 4).tcbMgr.update.tcb = false ∧
      (circuit.run stray 4).tcbMgr.update.tcb.csrCurr.any = true ∧
      (circuit.run stray 4).tcbMgr.update.tcb.endpoints ≠ (circuit.run stray 1).headerOut.endpoints := by
    decide +kernel
  obtain ⟨r, hr⟩ := exists_reply hv hc ht ha h.queue_room
  refine ⟨h, fun hback ↦ hne (swap_inj ?_)⟩
  rw [← (reply_spec hr).2.1]
  exact hback r hr

end QdmaTrafficGen.TopLevel
