import Mathlib.Logic.Function.Basic
import Mathlib.Tactic.Common

namespace QdmaTrafficGen

def ETH_TYPE_IPV4 : BitVec 16 := 0x0800#16

def IP_PROTO_TCP : BitVec 8 := 0x06#8

inductive TcpState
  | closed | listen | synRecv | synSent
  | established
  | fin1 | fin2 | closing | closeWait | lastAck | timeWait
  deriving DecidableEq, Repr

structure TcpCsr where
  syn : Bool := false
  ack : Bool := false
  rst : Bool := false
  fin : Bool := false
  deriving DecidableEq, Repr

namespace TcpCsr

def none : TcpCsr := {}
def SYN : TcpCsr := { syn := true }
def ACK : TcpCsr := { ack := true }
def SYN_ACK : TcpCsr := { syn := true, ack := true }
def FIN : TcpCsr := { fin := true }
def FIN_ACK : TcpCsr := { ack := true, fin := true }
def RST : TcpCsr := { rst := true }

def any (c : TcpCsr) : Bool := c.syn || c.ack || c.rst || c.fin

end TcpCsr

structure L2Hdr where
  destMac : BitVec 48 := 0
  srcMac : BitVec 48 := 0
  ethertype : BitVec 16 := 0
  deriving DecidableEq, Repr

structure Ipv4Hdr where
  version : BitVec 4 := 0
  ihl : BitVec 4 := 0
  dscp : BitVec 6 := 0
  ecn : BitVec 2 := 0
  totalLen : BitVec 16 := 0
  id : BitVec 16 := 0
  flags : BitVec 3 := 0
  fragOff : BitVec 15 := 0
  ttl : BitVec 8 := 0
  protocol : BitVec 8 := 0
  hdrChecksum : BitVec 16 := 0
  srcIp : BitVec 32 := 0
  destIp : BitVec 32 := 0
  deriving DecidableEq, Repr

structure TcpHdr where
  srcPort : BitVec 16 := 0
  destPort : BitVec 16 := 0
  seqNum : BitVec 32 := 0
  ackNum : BitVec 32 := 0
  dataOff : BitVec 4 := 0
  resv : BitVec 4 := 0
  csr : BitVec 8 := 0
  window : BitVec 16 := 0
  checksum : BitVec 16 := 0
  urgent : BitVec 16 := 0
  deriving DecidableEq, Repr

structure Header where
  l2Hdr : L2Hdr := {}
  ipv4Hdr : Ipv4Hdr := {}
  tcpHdr : TcpHdr := {}
  tcpCsr : TcpCsr := {}
  deriving DecidableEq, Repr

instance : Inhabited Header := ⟨{}⟩

/-- `{src_ip, dest_ip, src_port, dest_port}`, the low 96 bits of `cache_input_tuple`. -/
def Header.tuple (h : Header) : BitVec 96 :=
  h.ipv4Hdr.srcIp ++ h.ipv4Hdr.destIp ++ h.tcpHdr.srcPort ++ h.tcpHdr.destPort

abbrev Addr := BitVec 6

structure Tcb where
  destMac : BitVec 48 := 0
  srcMac : BitVec 48 := 0
  destIp : BitVec 32 := 0
  srcIp : BitVec 32 := 0
  destPort : BitVec 16 := 0
  srcPort : BitVec 16 := 0
  tcpCurr : TcpState := .closed
  tcpNext : TcpState := .closed
  seqNum : BitVec 32 := 0
  ackNum : BitVec 32 := 0
  lenNum : BitVec 16 := 0
  sndUna : BitVec 32 := 0
  sndNxt : BitVec 32 := 0
  rcvNxt : BitVec 32 := 0
  nextSendTime : BitVec 6 := 0
  backoffExp : BitVec 5 := 0
  csrCurr : TcpCsr := {}
  deriving DecidableEq, Repr

instance : Zero Tcb := ⟨{}⟩

instance : Inhabited Tcb := ⟨0⟩

structure Endpoints where
  destMac : BitVec 48
  srcMac : BitVec 48
  destIp : BitVec 32
  srcIp : BitVec 32
  destPort : BitVec 16
  srcPort : BitVec 16
  deriving DecidableEq, Repr

def Endpoints.swap (e : Endpoints) : Endpoints :=
  ⟨e.srcMac, e.destMac, e.srcIp, e.destIp, e.srcPort, e.destPort⟩

def Header.endpoints (h : Header) : Endpoints :=
  ⟨h.l2Hdr.destMac, h.l2Hdr.srcMac, h.ipv4Hdr.destIp, h.ipv4Hdr.srcIp, h.tcpHdr.destPort, h.tcpHdr.srcPort⟩

def Tcb.endpoints (t : Tcb) : Endpoints :=
  ⟨t.destMac, t.srcMac, t.destIp, t.srcIp, t.destPort, t.srcPort⟩

/-- An address with the TCB stored under it, `rto_entry_t`. -/
structure Entry where
  addr : Addr := 0
  tcb : Tcb := 0
  deriving DecidableEq, Repr

instance : Inhabited Entry := ⟨{}⟩

structure Beat (W : ℕ := 512) where
  tdata : BitVec W := 0
  tlast : Bool := false
  deriving DecidableEq, Repr

/-- `flow_config_t`: what the generators read of a flow's configuration. -/
structure FlowConfig where
  pktSize : BitVec 16 := 0
  cyclesPerPkt : BitVec 32 := 0
  srcIp : BitVec 32 := 0
  srcPort : BitVec 16 := 0
  srcMac : BitVec 48 := 0
  hashVal : BitVec 32 := 0
  deriving DecidableEq, Repr

end QdmaTrafficGen
