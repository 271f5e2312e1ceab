import QdmaTrafficGen.Packages

namespace QdmaTrafficGen.TcpCtrl

structure Fsm where
  tcpNext : TcpState
  tcpCsrTx : TcpCsr
  invalidate : Bool
  deriving DecidableEq

def closingReply (rx : TcpCsr) : TcpCsr × Bool :=
  if rx.fin then (.FIN_ACK, false)
  else if rx.ack then (.none, false)
  else if rx.rst then (.none, true)
  else (.RST, true)

def reply (curr : TcpState) (rx : TcpCsr) : TcpCsr × Bool :=
  match curr with
  | .closed => if rx = .SYN ∨ rx = .ACK ∨ rx = .FIN then (.RST, true) else (.none, false)
  | .listen =>
    if rx = .SYN then (.SYN_ACK, false)
    else if rx = .FIN ∨ rx = .ACK then (.RST, true)
    else if rx = .RST then (.none, true)
    else (.RST, true)
  | .synRecv =>
    if rx = .SYN then (.SYN_ACK, false)
    else if rx = .ACK then (.none, false)
    else if rx = .RST then (.none, true)
    else (.RST, true)
  | .synSent =>
    if rx.syn && rx.ack then (.ACK, false)
    else if rx.syn then (.SYN_ACK, false)
    else if rx.rst then (.none, true)
    else (.RST, true)
  | .established =>
    if rx.fin then (.FIN_ACK, false)
    else if rx.syn then (.RST, true)
    else if rx.ack then (.none, false)
    else if rx.rst then (.none, true)
    else (.RST, true)
  | .fin1 | .fin2 | .closing | .closeWait | .lastAck | .timeWait => closingReply rx

def transition (curr : TcpState) (rx : TcpCsr) : TcpState :=
  match curr with
  | .closed => .listen
  | .listen => if rx.syn then .synRecv else .listen
  | .synRecv => if rx.ack then .established else if rx.rst then .closed else .synRecv
  | .synSent =>
    if rx.rst then .closed
    else if rx.syn && rx.ack then .established
    else if rx.syn then .synRecv
    else .synSent
  | .established => if rx.rst then .closed else if rx.fin then .timeWait else .established
  | .fin1 =>
    if rx.rst then .closed else if rx.fin then .timeWait else if rx.ack then .fin2 else .fin1
  | .fin2 => if rx.rst then .closed else if rx.fin then .timeWait else .fin2
  | .closing => if rx.rst then .closed else if rx.ack then .timeWait else .closing
  | .closeWait => if rx.rst then .closed else .closeWait
  | .lastAck => if rx.rst then .closed else if rx.ack then .closed else .lastAck
  | .timeWait => .closed

def tcpFsm (curr : TcpState) (rx : TcpCsr) : Fsm where
  tcpNext := if (reply curr rx).2 then .closed else transition curr rx
  tcpCsrTx := (reply curr rx).1
  invalidate := (reply curr rx).2

def bit (b : Bool) : BitVec 32 := if b then 1 else 0

structure Update where
  tcb : Tcb
  invalidate : Bool := false
  cancelRto : Bool := false
  deriving DecidableEq

def currOf (new : Bool) (tcb : Tcb) : TcpState := if new then .listen else tcb.tcpCurr

/-- Whether the answer to a segment is turned into a reset. -/
def refuses (new : Bool) (rx : TcpCsr) (tcb : Tcb) : Bool :=
  rx.ack && currOf new tcb == .synRecv && tcb.ackNum > tcb.sndNxt

def ingress (new : Bool) (hdr : Header) (tcb : Tcb) : Update :=
  let rx := hdr.tcpCsr
  let fsm := tcpFsm (currOf new tcb) rx
  { tcb :=
      { tcb with
        tcpCurr := fsm.tcpNext
        tcpNext := fsm.tcpNext
        csrCurr := if refuses new rx tcb then .RST else fsm.tcpCsrTx
        nextSendTime := 0
        backoffExp := if new then 0 else 1
        sndUna :=
          if refuses new rx tcb then tcb.sndUna
          else if rx.ack && tcb.ackNum > tcb.sndUna then tcb.ackNum
          else tcb.sndUna
        rcvNxt :=
          if new then tcb.seqNum + 1
          else if hdr.tcpHdr.seqNum = tcb.rcvNxt then
            hdr.tcpHdr.seqNum + tcb.lenNum.setWidth 32 + bit rx.syn + bit rx.fin
          else tcb.rcvNxt }
    invalidate := fsm.invalidate
    cancelRto := rx.ack && rx == .ACK }

def advance (tcb : Tcb) : BitVec 32 :=
  tcb.lenNum.setWidth 32 + bit tcb.csrCurr.syn + bit tcb.csrCurr.fin

def egress (tcb : Tcb) : Update :=
  let sent :=
    { tcb with
      tcpCurr := tcb.tcpNext
      seqNum := tcb.sndNxt
      ackNum := tcb.rcvNxt }
  if tcb.nextSendTime = 0 then
    { tcb := { sent with nextSendTime := 1, backoffExp := 1, sndNxt := tcb.sndNxt + advance tcb } }
  else if tcb.backoffExp = 4 then
    { tcb := { sent with csrCurr := .RST }, invalidate := true }
  else
    { tcb := { sent with nextSendTime := 1, backoffExp := tcb.backoffExp + 1 } }

/-- The assignments to `new_packet_tcb`; the fields that they leave out keep their values. -/
def assignNew (tcb : Tcb) (hdr : Header) : Tcb :=
  { tcb with
    destMac := hdr.l2Hdr.destMac
    srcMac := hdr.l2Hdr.srcMac
    destIp := hdr.ipv4Hdr.destIp
    srcIp := hdr.ipv4Hdr.srcIp
    destPort := hdr.tcpHdr.destPort
    srcPort := hdr.tcpHdr.srcPort
    seqNum := hdr.tcpHdr.seqNum
    ackNum := hdr.tcpHdr.ackNum
    sndUna := 0
    sndNxt := 1
    rcvNxt := 0
    nextSendTime := 0
    backoffExp := 0
    csrCurr := .none }

def newPacketTcb (hdr : Header) : Tcb := assignNew 0 hdr

def newPacket (readMiss : Bool) (hdr : Header) : Bool := readMiss && hdr.tcpCsr == .SYN

/-- What is written to the TCB memory, `invalidate ? '0 : tcb_out_tx_d`. -/
def Update.stored (u : Update) : Tcb := if u.invalidate then 0 else u.tcb

end QdmaTrafficGen.TcpCtrl
