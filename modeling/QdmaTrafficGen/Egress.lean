import QdmaTrafficGen.Backoff
import QdmaTrafficGen.Sequential.Trace

namespace QdmaTrafficGen.Egress

open TcpCtrl Sequential Backoff

inductive Call
  | ingress (new : Bool) (hdr : Header)
  | egress

def Call.update : Call → Tcb → Update
  | .ingress new hdr, tcb => TcpCtrl.ingress new hdr tcb
  | .egress, tcb => TcpCtrl.egress tcb

def Call.isIngress : Call → Bool
  | .ingress .. => true
  | .egress => false

def reached (tcb : Tcb) (cs : List Call) : Tcb := after (fun t c ↦ (c.update t).tcb) tcb cs

theorem reached_concat (tcb : Tcb) (cs : List Call) (c : Call) :
    reached tcb (cs ++ [c]) = (c.update (reached tcb cs)).tcb := after_concat

def Starts (tcb : Tcb) : Prop := tcb = 0 ∨ ∃ hdr, tcb = newPacketTcb hdr

/-- No transition is pending, and `next_send_time` tells whether there was an ingress since the last
transmission, unless there is nothing to send. -/
structure Committed (received : Bool) (tcb : Tcb) : Prop where
  curr : tcb.tcpCurr = tcb.tcpNext
  first : received = true → tcb.nextSendTime = 0
  again : received = false → tcb.nextSendTime ≠ 0 ∨ advance tcb = 0

section

variable {tcb : Tcb}

theorem committed_start (h : Starts tcb) : Committed false tcb := by
  rcases h with rfl | ⟨hdr, rfl⟩
  · exact ⟨rfl, nofun, fun _ ↦ .inr rfl⟩
  · exact ⟨rfl, nofun, fun _ ↦ .inr rfl⟩

theorem egress_keeps (tcb : Tcb) :
    (egress tcb).tcb.tcpCurr = tcb.tcpNext ∧ (egress tcb).tcb.tcpNext = tcb.tcpNext ∧
      (egress tcb).tcb.endpoints = tcb.endpoints ∧ (egress tcb).tcb.sndUna = tcb.sndUna ∧
      (egress tcb).tcb.rcvNxt = tcb.rcvNxt ∧ (egress tcb).tcb.lenNum = tcb.lenNum := by
  simp only [egress]
  split_ifs
  · exact ⟨rfl, rfl, rfl, rfl, rfl, rfl⟩
  · exact ⟨rfl, rfl, rfl, rfl, rfl, rfl⟩
  · exact ⟨rfl, rfl, rfl, rfl, rfl, rfl⟩

theorem egress_sndNxt (tcb : Tcb) : (egress tcb).tcb.sndNxt =
    if tcb.nextSendTime = 0 then tcb.sndNxt + advance tcb else tcb.sndNxt := by
  simp only [egress]
  split_ifs
  · rfl
  · rfl
  · rfl

theorem egress_nextSendTime (tcb : Tcb) : (egress tcb).tcb.nextSendTime ≠ 0 := by
  by_cases hn : tcb.nextSendTime = 0
  · rw [(egress_first hn).1]
    decide
  by_cases hb : tcb.backoffExp = 4
  · rw [(egress_last hn hb).1]
    exact hn
  · rw [(egress_again hn hb).1]
    decide

theorem Committed.sndNxt {received : Bool} (h : Committed received tcb) :
    (egress tcb).tcb.sndNxt = if received then tcb.sndNxt + advance tcb else tcb.sndNxt := by
  rw [egress_sndNxt]
  cases received with
  | true => rw [if_pos (h.first rfl), if_pos rfl]
  | false =>
    rw [if_neg Bool.false_ne_true]
    rcases h.again rfl with hne | ha
    · rw [if_neg hne]
    · have hzero : tcb.sndNxt + 0 = tcb.sndNxt := BitVec.add_zero _
      rw [ha, hzero, ite_self]

theorem committed_update (c : Call) (tcb : Tcb) : Committed c.isIngress (c.update tcb).tcb := by
  cases c with
  | ingress new hdr => exact ⟨rfl, fun _ ↦ rfl, nofun⟩
  | egress =>
    obtain ⟨hcurr, hnext, -⟩ := egress_keeps tcb
    exact ⟨hcurr.trans hnext.symm, nofun, fun _ ↦ .inl (egress_nextSendTime tcb)⟩

theorem committed_reached (h : Starts tcb) (cs : List Call) :
    Committed (cs.getLast?.any Call.isIngress) (reached tcb cs) := by
  rcases List.eq_nil_or_concat' cs with rfl | ⟨cs, c, rfl⟩
  · exact committed_start h
  · rw [reached_concat, List.getLast?_concat]
    exact committed_update c _

/-- A transmission leaves a connection as it is, except that the first one after an ingress moves
`snd_nxt` past what is sent. -/
theorem egress_frame (h : Starts tcb) (cs : List Call) :
    (reached tcb cs).tcpCurr = (reached tcb cs).tcpNext ∧
    (egress (reached tcb cs)).tcb.tcpCurr = (reached tcb cs).tcpCurr ∧
    (egress (reached tcb cs)).tcb.endpoints = (reached tcb cs).endpoints ∧
    (egress (reached tcb cs)).tcb.sndUna = (reached tcb cs).sndUna ∧
    (egress (reached tcb cs)).tcb.rcvNxt = (reached tcb cs).rcvNxt ∧
    (egress (reached tcb cs)).tcb.lenNum = (reached tcb cs).lenNum ∧
    (egress (reached tcb cs)).tcb.sndNxt =
      if cs.getLast?.any Call.isIngress then
        (reached tcb cs).sndNxt + ((reached tcb cs).lenNum.setWidth 32 +
          bit (reached tcb cs).csrCurr.syn + bit (reached tcb cs).csrCurr.fin)
      else (reached tcb cs).sndNxt := by
  have hc := committed_reached h cs
  obtain ⟨hcurr, -, hends, huna, hrcv, hlen⟩ := egress_keeps (reached tcb cs)
  exact ⟨hc.curr, hcurr.trans hc.curr.symm, hends, huna, hrcv, hlen, hc.sndNxt⟩

theorem egress_frame_syn :
    let tcb := reached (newPacketTcb { tcpCsr := .SYN }) [.ingress true { tcpCsr := .SYN }]
    (egress tcb).tcb.sndNxt = tcb.sndNxt + (tcb.lenNum.setWidth 32 + 1 + 0) :=
  (egress_frame (.inr ⟨{ tcpCsr := .SYN }, rfl⟩) [.ingress true { tcpCsr := .SYN }]).2.2.2.2.2.2

end

end QdmaTrafficGen.Egress
