import QdmaTrafficGen.Clocked.Run
import QdmaTrafficGen.TcpCtrl
import QdmaTrafficGen.Writeback

namespace QdmaTrafficGen.TcbMgr

open Clocked TcpCtrl

/-- The registers of `tcb_mgr` and of the modules in it, and the contents of the TCB memory. -/
structure State where
  wb : Writeback.State := {}
  tcbAlloc : Addr → Bool := fun _ ↦ false
  lock : Addr → Bool := fun _ ↦ false
  newPacketD : Bool := false
  newPacketD2 : Bool := false
  headerOutD : Header := {}
  newPacketTcb : Tcb := 0
  wbValidD : Bool := false
  pathD : Bool := false
  wbAddrD : Addr := 0
  tcbBOut : Tcb := 0
  cancelRto : Bool := false
  invalidate : Bool := false
  tcpCtrlValid : Bool := false
  tcpCtrlAddr : Addr := 0
  tcbOutTx : Tcb := 0
  tcb : Addr → Tcb := fun _ ↦ 0

/-- The ports of `tcb_mgr`. `collide` is what the memory reads from a word that is being
written. -/
structure Input where
  readMiss : Bool := false
  headerOut : Header := {}
  tcbValidRx : Bool := false
  tcbAddrRx : Addr := 0
  tcbValidTx : Bool := false
  tcbAddrTx : Addr := 0
  tcbInTx : Tcb := 0
  collide : Tcb := 0

variable (s : State) (i : Input)

def State.wbInput : Writeback.Input where
  tcbAlloc := s.tcbAlloc
  tcbValidRx := i.tcbValidRx
  tcbAddrRx := i.tcbAddrRx
  tcbValidTx := i.tcbValidTx
  tcbAddrTx := i.tcbAddrTx
  tcbInTx := i.tcbInTx

def State.wbOutput : Writeback.Output := Writeback.output s.wb (s.wbInput i)

def State.tcbIn : Tcb := if s.newPacketD2 then s.newPacketTcb else s.tcbBOut

def State.update : Update :=
  if s.wbValidD then
    if s.pathD then ingress s.newPacketD2 s.headerOutD s.tcbIn else egress s.tcbIn
  else { tcb := s.tcbIn }

def State.dina : Tcb := if s.invalidate then 0 else s.tcbOutTx

def State.next : State where
  wb := Writeback.next s.wb (s.wbInput i)
  tcbAlloc :=
    if s.invalidate then Function.update s.tcbAlloc s.tcpCtrlAddr false
    else if i.tcbValidRx then Function.update s.tcbAlloc i.tcbAddrRx true
    else s.tcbAlloc
  lock :=
    let obtained :=
      if (s.wbOutput i).valid then Function.update s.lock (s.wbOutput i).addr true else s.lock
    if s.tcpCtrlValid then Function.update obtained s.tcpCtrlAddr false else obtained
  newPacketD := newPacket i.readMiss i.headerOut
  newPacketD2 := s.newPacketD
  headerOutD := i.headerOut
  newPacketTcb := if s.newPacketD then assignNew s.newPacketTcb s.headerOutD else s.newPacketTcb
  wbValidD := (s.wbOutput i).valid
  pathD := (s.wbOutput i).path
  wbAddrD := (s.wbOutput i).addr
  tcbBOut :=
    if s.tcpCtrlValid ∧ s.tcpCtrlAddr = (s.wbOutput i).addr then i.collide
    else s.tcb (s.wbOutput i).addr
  cancelRto := s.update.cancelRto
  invalidate := s.update.invalidate
  tcpCtrlValid := s.wbValidD
  tcpCtrlAddr := if s.wbValidD then s.wbAddrD else s.tcpCtrlAddr
  tcbOutTx := if s.wbValidD then s.update.tcb else s.tcbOutTx
  tcb := if s.tcpCtrlValid then Function.update s.tcb s.tcpCtrlAddr s.dina else s.tcb

def circuit : Circuit Input State := ⟨{}, State.next⟩

theorem run_succ (u : ℕ → Input) (n : ℕ) :
    circuit.run u (n + 1) = (circuit.run u n).next (u n) := rfl

variable {s i}

theorem newPacketTcb_next {P : Tcb → Prop} (hP : ∀ tcb hdr, P tcb → P (assignNew tcb hdr))
    (h : P s.newPacketTcb) : P (s.next i).newPacketTcb := by
  simp only [State.next]
  split
  case isTrue => exact hP _ _ h
  case isFalse => exact h

end QdmaTrafficGen.TcbMgr
