import QdmaTrafficGen.Cache
import QdmaTrafficGen.Datapath
import QdmaTrafficGen.Rto
import QdmaTrafficGen.TcbMgr

namespace QdmaTrafficGen.TopLevel

open Clocked

/-- The registers of `top_level` and of the modules in it. -/
structure State where
  busy : Bool := false
  headerQueue : Fifo Header := .reset
  cache : Cache.State := {}
  tcbMgr : TcbMgr.State := {}
  rto : Rto.State := {}
  c2hTdata : BitVec 512 := 0

/-- The beats that arrive, and what the memories show of words that are being written. -/
structure Input where
  h2cTdata : BitVec 512 := 0
  h2cTvalid : Bool := false
  collideL : Cache.Way → BitVec 32 := fun _ ↦ 0
  collideR : Cache.Way → BitVec 32 := fun _ ↦ 0
  collideTcb : Tcb := 0

def headerIn (i : Input) : Option Header :=
  if i.h2cTvalid then some (Datapath.decode i.h2cTdata) else none

namespace State

variable (s : State) (i : Input)

def headerOut : Header := s.headerQueue.dout

def pop : Bool := !s.busy && !s.headerQueue.empty

def cacheInput : Cache.Input where
  read := s.pop
  inputTuple := s.headerOut.tuple
  invalidate := s.tcbMgr.invalidate
  invalidateAddr := s.tcbMgr.tcpCtrlAddr
  collideL := i.collideL
  collideR := i.collideR

def rtoInput : Rto.Input where
  cancelRto := s.tcbMgr.cancelRto
  write := s.tcbMgr.tcpCtrlValid
  tcbAddrIn := s.tcbMgr.tcpCtrlAddr
  tcbDataIn := s.tcbMgr.tcbOutTx
  txDatapathReady := true

def tcbRtoValid : Bool := s.rto.tcbAddrOutValid s.rtoInput

def tcbRtoOut : Entry := (s.rto.arbiter s.rtoInput).entry

def tcbMgrInput : TcbMgr.Input where
  readMiss := s.cache.readMiss (s.cacheInput i)
  headerOut := s.headerOut
  tcbValidRx := s.cache.tcbAddrValid
  tcbAddrRx := s.cache.tcbAddr
  tcbValidTx := s.tcbRtoValid
  tcbAddrTx := s.tcbRtoOut.addr
  tcbInTx := s.tcbRtoOut.tcb
  collide := i.collideTcb

/-- The connections of `tx_datapath_i`: the answer goes back to where the packet came from. -/
def txInput : Datapath.TxInput where
  tcbValid := s.tcbRtoValid
  srcMac := s.tcbRtoOut.tcb.destMac
  destMac := s.tcbRtoOut.tcb.srcMac
  srcIp := s.tcbRtoOut.tcb.destIp
  destIp := s.tcbRtoOut.tcb.srcIp
  srcPort := s.tcbRtoOut.tcb.destPort
  destPort := s.tcbRtoOut.tcb.srcPort
  seqNum := s.tcbRtoOut.tcb.sndNxt
  ackNum := s.tcbRtoOut.tcb.rcvNxt
  tcpCsr := s.tcbRtoOut.tcb.csrCurr

def next : State where
  busy := if s.pop then true else if s.cache.tcbAddrValid then false else s.busy
  headerQueue := s.headerQueue.next 64 (headerIn i) s.pop
  cache := s.cache.next (s.cacheInput i)
  tcbMgr := s.tcbMgr.next (s.tcbMgrInput i)
  rto := s.rto.next s.rtoInput
  c2hTdata := s.txInput.tdataNext s.c2hTdata

end State

def circuit : Circuit Input State := ⟨{}, State.next⟩

theorem run_succ (u : ℕ → Input) (n : ℕ) :
    circuit.run u (n + 1) = (circuit.run u n).next (u n) := rfl

end QdmaTrafficGen.TopLevel
