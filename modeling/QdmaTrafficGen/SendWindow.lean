import QdmaTrafficGen.Clocked.Run
import QdmaTrafficGen.TcpCtrl

namespace QdmaTrafficGen.SendWindow

open Clocked TcpCtrl

/-- What happens to one TCB: a segment arrives, with or without a cache miss, or one is sent. -/
inductive Event
  | rx (readMiss : Bool) (hdr : Header)
  | tx

def Event.update : Event → Tcb → Update
  | .rx readMiss hdr, tcb =>
    ingress (newPacket readMiss hdr) hdr (if newPacket readMiss hdr then newPacketTcb hdr else tcb)
  | .tx, tcb => egress tcb

def circuit : Circuit Event Tcb := ⟨0, fun tcb e ↦ (e.update tcb).stored⟩

/-- `snd_una` after an acknowledgement of `ack`, by the pseudocode. -/
def pseudocode (tcb : Tcb) (ack : BitVec 32) : BitVec 32 :=
  if tcb.sndUna < ack ∧ ack ≤ tcb.sndNxt then ack else tcb.sndUna

/-- A segment with the ACK flag updates the send window as the pseudocode says, and its answer is
turned into a reset in SYN_RECV only if it acknowledges too much. -/
def AckOk (tcb : Tcb) : Event → Prop
  | .rx readMiss hdr => hdr.tcpCsr.ack = true →
    let out := (Event.rx readMiss hdr).update tcb
    out.tcb.sndUna = pseudocode tcb hdr.tcpHdr.ackNum ∧
      (tcb.tcpCurr = .synRecv → (tcpFsm .synRecv hdr.tcpCsr).tcpCsrTx ≠ .RST →
        out.tcb.csrCurr = .RST → tcb.sndNxt < hdr.tcpHdr.ackNum)
  | .tx => True

/-- When the stored `ack_num` leads to the same decisions as the number that was received, and a
transmission does not wrap `snd_nxt` around to below `snd_una`. -/
def Agrees (tcb : Tcb) : Event → Prop
  | .rx _ hdr => hdr.tcpCsr.ack = true →
    (if tcb.sndUna < hdr.tcpHdr.ackNum ∧ hdr.tcpHdr.ackNum ≤ tcb.sndNxt then
        tcb.ackNum = hdr.tcpHdr.ackNum
      else tcb.ackNum ≤ tcb.sndUna ∨ tcb.tcpCurr = .synRecv ∧ tcb.sndNxt < tcb.ackNum) ∧
    (tcb.tcpCurr = .synRecv → hdr.tcpCsr = .ACK → tcb.sndNxt < tcb.ackNum →
      tcb.sndNxt < hdr.tcpHdr.ackNum)
  | .tx => tcb.nextSendTime = 0 → tcb.sndNxt.toNat + (advance tcb).toNat < 2 ^ 32 ∨
      tcb.sndUna.toNat + 2 ^ 32 ≤ tcb.sndNxt.toNat + (advance tcb).toNat

def Ordered (tcb : Tcb) : Prop := tcb.sndUna ≤ tcb.sndNxt

theorem ordered_stored {u : Update} (h : Ordered u.tcb) : Ordered u.stored := by
  simp only [Update.stored]
  split
  · exact BitVec.le_refl _
  · exact h

theorem reply_synRecv : ∀ {rx : TcpCsr}, rx.ack = true →
    ((tcpFsm .synRecv rx).tcpCsrTx ≠ .RST ↔ rx = .ACK) := by
  rintro ⟨syn, ack, rst, fin⟩ (rfl : ack = true)
  cases syn <;> cases rst <;> cases fin <;> decide

theorem newPacket_ack {readMiss : Bool} {hdr : Header} (h : hdr.tcpCsr.ack = true) :
    newPacket readMiss hdr = false := by
  have hne : hdr.tcpCsr ≠ .SYN := by
    intro he
    simp [he, TcpCsr.SYN] at h
  simp [newPacket, hne]

theorem refuses_iff {rx : TcpCsr} {tcb : Tcb} (h : rx.ack = true) :
    refuses false rx tcb = true ↔ tcb.tcpCurr = .synRecv ∧ tcb.sndNxt < tcb.ackNum := by
  simp [refuses, currOf, h]

theorem sndUna_ack {hdr : Header} {tcb : Tcb} (h : hdr.tcpCsr.ack = true) :
    (ingress false hdr tcb).tcb.sndUna =
      if tcb.tcpCurr = .synRecv ∧ tcb.sndNxt < tcb.ackNum then tcb.sndUna
      else if tcb.sndUna < tcb.ackNum then tcb.ackNum else tcb.sndUna := by
  simp only [ingress, refuses_iff h]
  simp [h]

theorem csrCurr_ack {hdr : Header} {tcb : Tcb} (h : hdr.tcpCsr.ack = true)
    (hs : tcb.tcpCurr = .synRecv) (hr : (tcpFsm .synRecv hdr.tcpCsr).tcpCsrTx ≠ .RST) :
    (ingress false hdr tcb).tcb.csrCurr = .RST ↔ tcb.sndNxt < tcb.ackNum := by
  have hc : currOf false tcb = .synRecv := hs
  simp only [ingress, refuses_iff h, hs, hc, true_and]
  split
  · simp [*]
  · simp [*]

theorem pseudocode_iff (tcb : Tcb) (ack : BitVec 32) :
    (if tcb.tcpCurr = .synRecv ∧ tcb.sndNxt < tcb.ackNum then tcb.sndUna
      else if tcb.sndUna < tcb.ackNum then tcb.ackNum else tcb.sndUna) = pseudocode tcb ack ↔
    if tcb.sndUna < ack ∧ ack ≤ tcb.sndNxt then tcb.ackNum = ack
    else tcb.ackNum ≤ tcb.sndUna ∨ tcb.tcpCurr = .synRecv ∧ tcb.sndNxt < tcb.ackNum := by
  simp only [pseudocode]
  by_cases hr : tcb.tcpCurr = .synRecv ∧ tcb.sndNxt < tcb.ackNum
  · have hn := hr.2
    rw [if_pos hr]
    split_ifs with hp
    · exact ⟨fun h ↦ by bv_omega, fun h ↦ by bv_omega⟩
    · exact ⟨fun _ ↦ .inr hr, fun _ ↦ rfl⟩
  · rw [if_neg hr]
    split_ifs with hs hp hp
    · exact Iff.rfl
    · refine ⟨fun h ↦ by bv_omega, fun h ↦ ?_⟩
      rcases h with h | h
      · bv_omega
      · exact absurd h hr
    · exact ⟨fun h ↦ by bv_omega, fun h ↦ by bv_omega⟩
    · exact ⟨fun _ ↦ .inl (by bv_omega), fun _ ↦ rfl⟩

theorem ordered_rx {new : Bool} {hdr : Header} {tcb : Tcb} (h : hdr.tcpCsr.ack = false)
    (ho : Ordered tcb) : Ordered (ingress new hdr tcb).tcb := by
  simpa [Ordered, ingress, refuses, h] using ho

theorem ordered_tx {tcb : Tcb} (ho : Ordered tcb) :
    Ordered (egress tcb).stored ↔ Agrees tcb .tx := by
  simp only [Ordered] at ho
  simp only [Agrees, egress]
  by_cases hn : tcb.nextSendTime = 0
  · simp only [hn, if_true, Update.stored, Bool.false_eq_true, if_false, Ordered, true_imp_iff]
    generalize advance tcb = d
    bv_omega
  · simp only [hn, if_false, false_imp_iff, iff_true]
    apply ordered_stored
    split <;> exact ho

theorem ackOk_iff {tcb : Tcb} (ho : Ordered tcb) (e : Event) :
    AckOk tcb e ∧ Ordered (e.update tcb).stored ↔ Agrees tcb e := by
  cases e with
  | tx => simp only [AckOk, true_and, Event.update, ordered_tx ho]
  | rx readMiss hdr =>
    cases ha : hdr.tcpCsr.ack with
    | false =>
      have hs : Ordered ((Event.rx readMiss hdr).update tcb).stored := by
        apply ordered_stored
        apply ordered_rx ha
        split
        · exact BitVec.le_of_lt (by simp [newPacketTcb, assignNew])
        · exact ho
      simp [AckOk, Agrees, ha, hs]
    | true =>
      have hu : (Event.rx readMiss hdr).update tcb = ingress false hdr tcb := by
        simp [Event.update, newPacket_ack ha]
      have hw : (ingress false hdr tcb).tcb.sndUna = pseudocode tcb hdr.tcpHdr.ackNum →
          Ordered (ingress false hdr tcb).stored := by
        intro h
        apply ordered_stored
        rw [Ordered, h, pseudocode]
        split
        · next hp => exact hp.2
        · exact ho
      have hr : (tcb.tcpCurr = .synRecv → (tcpFsm .synRecv hdr.tcpCsr).tcpCsrTx ≠ .RST →
          (ingress false hdr tcb).tcb.csrCurr = .RST → tcb.sndNxt < hdr.tcpHdr.ackNum) ↔
          (tcb.tcpCurr = .synRecv → hdr.tcpCsr = .ACK → tcb.sndNxt < tcb.ackNum →
            tcb.sndNxt < hdr.tcpHdr.ackNum) := by
        refine forall_congr' fun hs ↦ ?_
        rw [reply_synRecv ha]
        refine forall_congr' fun hc ↦ ?_
        rw [csrCurr_ack ha hs ((reply_synRecv ha).mpr hc)]
      simp only [AckOk, Agrees, hu, ha, true_imp_iff]
      rw [hr, ← pseudocode_iff, ← sndUna_ack ha]
      exact ⟨fun h ↦ h.1, fun h ↦ ⟨h, hw h.1⟩⟩

/-- A connection follows the pseudocode and keeps `snd_una` up to `snd_nxt` exactly as long as the
two acknowledgement numbers agree on every event. -/
theorem window_run_iff (u : ℕ → Event) (n : ℕ) :
    ((∀ k < n, AckOk (circuit.run u k) (u k)) ∧ ∀ k ≤ n, Ordered (circuit.run u k)) ↔
      ∀ k < n, Agrees (circuit.run u k) (u k) :=
  stepwise_and_iff (BitVec.le_refl _) (fun k ho ↦ ackOk_iff ho (u k)) n

def handshake : ℕ → Event
  | 0 => .rx true { tcpHdr := { seqNum := 1000 }, tcpCsr := .SYN }
  | 1 => .tx
  | _ => .rx false { tcpHdr := { seqNum := 1001, ackNum := 2 }, tcpCsr := .ACK }

theorem handshake_not_ackOk : ¬∀ n, AckOk (circuit.run handshake n) (handshake n) := by
  intro h
  have hu := (h 2 rfl).1
  exact absurd hu (by decide)

end QdmaTrafficGen.SendWindow
