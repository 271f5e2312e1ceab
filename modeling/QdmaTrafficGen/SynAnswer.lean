import QdmaTrafficGen.ReplyEndpoints
import QdmaTrafficGen.WireFormat

namespace QdmaTrafficGen.TopLevel

open Clocked TcpCtrl Datapath

def writtenNew (hdr : Header) : Tcb :=
  (ingress (newPacket true hdr) hdr (newPacketTcb hdr)).stored

section

variable {s : State} {e : Entry} {hdr : Header}

theorem frame_of_entry (ho : s.rto.out s.rtoInput = some e) (hc : e.tcb.csrCurr.any = true)
    (i : Input) : ∃ h, (s.next i).frame = some h ∧ h.endpoints = e.tcb.endpoints.swap ∧
      h.tcpCsr = e.tcb.csrCurr ∧ h.tcpHdr.seqNum = e.tcb.sndNxt ∧
      h.tcpHdr.ackNum = e.tcb.rcvNxt := by
  obtain ⟨hv, rfl⟩ := out_eq_some.mp ho
  have hf : (s.next i).frame = some (decode (s.txInput.tdataNext s.c2hTdata)) :=
    if_neg (TxInput.tdataNext_ne_zero.mpr ⟨hc, hv⟩)
  obtain ⟨hends, hcsr⟩ := TxInput.decode_tdataNext (i := s.txInput) hc hv s.c2hTdata
  refine ⟨_, hf, hends, hcsr, ?_⟩
  rw [TxInput.decode_frame hc hv, TxInput.tcpHdr_tdataNext hc hv]
  exact ⟨rfl, rfl⟩

theorem invalidate_syn (h : hdr.tcpCsr = .SYN) (t : Tcb) :
    (ingress true hdr t).invalidate = false := by
  simp only [ingress, h]
  rfl

theorem writtenNew_eq (h : hdr.tcpCsr = .SYN) :
    writtenNew hdr = (ingress true hdr (newPacketTcb hdr)).tcb := by
  have hnew : newPacket true hdr = true := by
    rw [newPacket, h]
    rfl
  rw [writtenNew, hnew, Update.stored, invalidate_syn h]
  rfl

theorem writtenNew_syn (h : hdr.tcpCsr = .SYN) :
    (writtenNew hdr).tcpCurr = .synRecv ∧ (writtenNew hdr).csrCurr = .SYN_ACK ∧
      (writtenNew hdr).rcvNxt = hdr.tcpHdr.seqNum + 1 ∧
      (writtenNew hdr).endpoints = hdr.endpoints := by
  rw [writtenNew_eq h]
  simp only [ingress, h, refuses]
  exact ⟨rfl, rfl, rfl, rfl⟩

end

/-- A SYN is answered with a SYN-ACK, which goes back to its sender and acknowledges it. -/
theorem syn_answered {tdata : BitVec 512} (hsyn : (decode tdata).tcpCsr = .SYN) :
    (writtenNew (decode tdata)).tcpCurr = .synRecv ∧
      (writtenNew (decode tdata)).rcvNxt = (decode tdata).tcpHdr.seqNum + 1 ∧
      ∀ (s : State) (i : Input) (a : Addr),
        s.rto.out s.rtoInput = some ⟨a, writtenNew (decode tdata)⟩ →
        ∃ h, (s.next i).frame = some h ∧ h.tcpCsr = .SYN_ACK ∧
          h.endpoints = (decode tdata).endpoints.swap ∧
          h.tcpHdr.ackNum = (decode tdata).tcpHdr.seqNum + 1 := by
  obtain ⟨hcurr, hcsr, hrcv, hends⟩ := writtenNew_syn hsyn
  refine ⟨hcurr, hrcv, fun s i a ho ↦ ?_⟩
  obtain ⟨h, hf, hh, hc, -, hack⟩ := frame_of_entry ho (by rw [hcsr]; rfl) i
  refine ⟨h, hf, hc.trans hcsr, ?_, hack.trans hrcv⟩
  rw [hh, hends]

theorem syn_answered_lone : ∃ h, (circuit.run lone 7).frame = some h ∧ h.tcpCsr = .SYN_ACK ∧
    h.endpoints = (decode (segment 1000 0 2)).endpoints.swap ∧ h.tcpHdr.ackNum = 1001 :=
  (@syn_answered (segment 1000 0 2) (by decide)).2.2 (circuit.run lone 6) (lone 6) 0
    (by decide +kernel)

section

variable {u : ℕ → Input} {t : ℕ}

theorem AsItself.writes_new (ha : AsItself u t)
    (hn : (circuit.run u (t + 3)).tcbMgr.newPacketD2 = true) :
    (circuit.run u t).headerOut.tcpCsr = .SYN ∧
      (circuit.run u (t + 3)).tcbMgr.update.invalidate = false ∧
      (circuit.run u (t + 3)).tcbMgr.update.tcb = writtenNew (circuit.run u t).headerOut := by
  have hmiss : newPacket ((circuit.run u (t + 1)).tcbMgrInput (u (t + 1))).readMiss
      (circuit.run u t).headerOut = true := ha.miss ▸ hn
  have hsyn : (circuit.run u t).headerOut.tcpCsr = .SYN := by
    rw [newPacket, Bool.and_eq_true, beq_iff_eq] at hmiss
    exact hmiss.2
  have htcb : (circuit.run u (t + 3)).tcbMgr.tcbIn = newPacketTcb (circuit.run u t).headerOut := by
    have hd : (circuit.run u (t + 2)).tcbMgr.newPacketD = true := hn
    rw [TcbMgr.State.tcbIn, if_pos hn, ← ha.opened,
      ← TcbMgr.assignNew_blank (blank_newPacketTcb u (t + 2))]
    exact if_pos hd
  have hproc := processing_eq_some.mpr ⟨ha.ingress.1, ha.ingress.2, ha.processed⟩
  rw [update_of_processing hproc, hn, htcb]
  exact ⟨hsyn, invalidate_syn hsyn _, (writtenNew_eq hsyn).symm⟩

theorem AsItself.synAck (ha : AsItself u t)
    (hn : (circuit.run u (t + 3)).tcbMgr.newPacketD2 = true) {h : Header}
    (hh : h ∈ replies u (t + 3)) : h.tcpCsr = .SYN_ACK ∧
      h.endpoints = (circuit.run u t).headerOut.endpoints.swap ∧
      h.tcpHdr.ackNum = (circuit.run u t).headerOut.tcpHdr.seqNum + 1 := by
  obtain ⟨hsyn, -, htcb⟩ := ha.writes_new hn
  obtain ⟨-, hcsr, hrcv, hends⟩ := writtenNew_syn hsyn
  obtain ⟨n, hs, hf⟩ := hh
  have ho := out_eq_written u n
  rw [hs, Option.map_some, tcbOutTx_run ha.ingress.1, htcb] at ho
  obtain ⟨h', hf', hh', hc, -, hack⟩ := frame_of_entry ho (by rw [hcsr]; rfl) (u n)
  obtain rfl := Option.some.inj (hf'.symm.trans hf)
  exact ⟨hc.trans hcsr, hh'.trans (congrArg Endpoints.swap hends), hack.trans hrcv⟩

end

end QdmaTrafficGen.TopLevel
