import QdmaTrafficGen.Packages

namespace QdmaTrafficGen.TrafficGen

def GLOBAL_DST_IP : BitVec 32 := 0xC0A8640A#32

def GLOBAL_DST_PORT : BitVec 16 := 0x1234#16

def GLOBAL_PROTOCOL : BitVec 8 := 0x6#8

def GLOBAL_DST_MAC : BitVec 48 := 0x001112345678#48

/-- `RX_LEN / 8`; the header layout needs `RX_LEN` to be 512. -/
def BYTES_PER_BEAT : BitVec 32 := 64

def crc : BitVec 32 := 0x0a212121#32

inductive GenState
  | idle | transfer | wait
  deriving DecidableEq, Repr

structure State where
  currState : GenState := .idle
  waitCounter : BitVec 32 := 0
  transCounter : BitVec 16 := 0
  isHeader : Bool := true
  cyclesPkt : BitVec 32 := 0

structure Input where
  timestamp : BitVec 32 := 0
  configIn : FlowConfig := {}
  flowRunning : Bool := false
  tready : Bool := false

namespace Input

variable (i : Input)

def lastBeat : BitVec 32 := i.configIn.pktSize.setWidth 32 - BYTES_PER_BEAT

/-- `pkt_size[15:6] +| pkt_size[5:0] + 1`: the reduction `|` binds first. -/
def cyclesNeeded : BitVec 32 :=
  (i.configIn.pktSize.extractLsb' 6 10).setWidth 32 +
    (if i.configIn.pktSize.extractLsb' 0 6 ≠ 0 then 1 else 0) + 1

def cyclesGranted : BitVec 32 :=
  if i.cyclesNeeded < i.configIn.cyclesPerPkt then i.configIn.cyclesPerPkt else i.cyclesNeeded

def headerEthBuf : BitVec 112 := GLOBAL_DST_MAC ++ i.configIn.srcMac ++ 0x0800#16

def headerIpBuf : BitVec 160 :=
  0#72 ++ GLOBAL_PROTOCOL ++ 0#16 ++ i.configIn.srcIp ++ GLOBAL_DST_IP

def headerTransBuf : BitVec 160 := i.configIn.srcPort ++ GLOBAL_DST_PORT ++ 0#128

def header : BitVec 512 :=
  i.headerEthBuf ++ i.headerIpBuf ++ i.headerTransBuf ++ i.timestamp ++ 0x1234#16 ++ 0#32

end Input

namespace State

variable (s : State) (i : Input)

/-- `trans_counter >= pkt_size - BYTES_PER_BEAT`, an unsigned comparison in 32 bits. -/
def atEnd : Bool := i.lastBeat ≤ s.transCounter.setWidth 32

def dataBuf : BitVec 512 :=
  let data := if s.isHeader then i.header else BitVec.replicate 64 0x41#8
  if i.lastBeat.sle (s.transCounter.signExtend 32) then data.extractLsb' 32 480 ++ crc else data

def tvalid : Bool := s.currState == .transfer

def beat : Beat := ⟨s.dataBuf i, s.tvalid && s.atEnd i⟩

def rested : Bool := s.cyclesPkt - 1 ≤ s.waitCounter

def nextState : GenState :=
  match s.currState with
  | .idle => if i.tready && i.flowRunning then .transfer else .idle
  | .transfer => if i.tready && s.atEnd i then .wait else .transfer
  | .wait =>
    if i.flowRunning then if i.tready && s.rested then .transfer else .wait
    else .idle

def next : State :=
  match s.currState with
  | .idle =>
    { currState := s.nextState i
      waitCounter := 0
      transCounter := 0
      isHeader := true
      cyclesPkt := i.cyclesGranted }
  | .transfer =>
    if i.tready then
      { s with
        currState := s.nextState i
        waitCounter := s.waitCounter + 1
        transCounter := if s.atEnd i then 0 else s.transCounter + BYTES_PER_BEAT.setWidth 16
        isHeader := false }
    else { s with currState := s.nextState i }
  | .wait =>
    { currState := s.nextState i
      waitCounter := if i.tready && s.rested then 0 else s.waitCounter + 1
      transCounter := 0
      isHeader := true
      cyclesPkt := if i.tready && s.rested then i.cyclesGranted else s.cyclesPkt }

def produced : Option Beat := if s.tvalid && i.tready then some (s.beat i) else none

end State

section

variable {s : State} {i : Input}

theorem currState_next : (s.next i).currState = s.nextState i := by
  unfold State.next
  cases s.currState <;> dsimp only
  split <;> rfl

theorem tvalid_of_produced {b : Beat} (h : s.produced i = some b) (hb : b.tlast = false) :
    (s.next i).tvalid = true := by
  simp only [State.produced, Option.ite_none_right_eq_some, Bool.and_eq_true, Option.some.injEq] at h
  obtain ⟨⟨hv, hr⟩, rfl⟩ := h
  simp only [State.beat, hv, Bool.true_and] at hb
  simp only [State.tvalid, beq_iff_eq] at hv ⊢
  rw [currState_next, State.nextState, hv]
  simp [hb]

theorem tready_of_stalled (h : s.tvalid = true) (hp : s.produced i = none) : i.tready = false := by
  simpa [State.produced, h] using hp

theorem tvalid_of_stalled (h : s.tvalid = true) (hr : i.tready = false) :
    (s.next i).tvalid = true := by
  simp only [State.tvalid, beq_iff_eq] at h ⊢
  rw [currState_next, State.nextState, h]
  simp [hr]

end

end QdmaTrafficGen.TrafficGen
