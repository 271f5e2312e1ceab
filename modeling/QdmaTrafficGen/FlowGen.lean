import QdmaTrafficGen.AxisFifo
import QdmaTrafficGen.Clocked.OneHot
import QdmaTrafficGen.Clocked.Run
import QdmaTrafficGen.Clocked.Scan
import QdmaTrafficGen.TrafficGen

namespace QdmaTrafficGen.FlowGen

open Clocked

/-- The registers of `flow_gen`, and those of the generator and the FIFO of each of its `N` flows. -/
structure State (N : ℕ) where
  gen : Fin N → TrafficGen.State
  fifo : Fin N → AxisFifo.State
  currentFlow : BitVec N := 1
  switchGap : Bool := false

structure Input (N : ℕ) where
  timestamp : BitVec 32 := 0
  rxReady : Bool := true
  crdtValid : Bool := true
  qidFifoFull : Bool := false
  flowConfig : Fin N → FlowConfig := fun _ ↦ {}
  flowRunning : BitVec N := 0

structure Output where
  rxValid : Bool := false
  rxData : BitVec 512 := 0
  rxLast : Bool := false
  hashVal : BitVec 32 := 0
  pktSize : BitVec 16 := 0

def Output.beat (o : Output) : Option Beat := if o.rxValid then some ⟨o.rxData, o.rxLast⟩ else none

namespace State

variable {N : ℕ} (depth : ℕ) (s : State N) (i : Input N) (j : Fin N)

def fifoTready : Bool :=
  s.currentFlow.getLsbD j && i.rxReady && i.crdtValid && !i.qidFifoFull && !s.switchGap

def genInput : TrafficGen.Input where
  timestamp := i.timestamp
  configIn := i.flowConfig j
  flowRunning := i.flowRunning.getLsbD j
  tready := (s.fifo j).sTready

def fifoInput : AxisFifo.Input where
  sTvalid := (s.gen j).tvalid
  sBeat := (s.gen j).beat (s.genInput i j)
  mTready := s.fifoTready i j

def fifoTvalid : BitVec N := bus fun j ↦ (s.fifo j).mTvalid

def packetComplete : Bool :=
  s.currentFlow &&& bus (s.fifoTready i) &&& s.fifoTvalid &&& bus (fun j ↦ (s.fifo j).mBeat.tlast) ≠ 0

def currentFlowEmpty : Bool := s.currentFlow &&& s.fifoTvalid = 0

def candidate (j : ℕ) : BitVec N :=
  (s.currentFlow <<< j ||| s.currentFlow >>> (N - j)) &&& s.fifoTvalid &&& i.flowRunning

def nextFlow : BitVec N :=
  match (List.range' 1 (N - 1)).find? fun j ↦ s.candidate i j ≠ 0 with
  | some j => s.candidate i j &&& (~~~s.candidate i j + 1)
  | none => s.currentFlow

def switchTrigger : Bool :=
  s.nextFlow i &&& s.fifoTvalid ≠ 0 && (s.packetComplete i || s.currentFlowEmpty)

def flowOutput : Output where
  rxValid := (s.fifo j).mTvalid && s.fifoTready i j
  rxData := (s.fifo j).mBeat.tdata
  rxLast := (s.fifo j).mBeat.tlast
  hashVal := (i.flowConfig j).hashVal
  pktSize := (i.flowConfig j).pktSize

/-- The output mux: a later flow of `current_flow` overwrites an earlier one. -/
def output : Output :=
  (List.finRange N).foldl (fun o (j : Fin N) ↦ if s.currentFlow.getLsbD j then s.flowOutput i j else o) {}

def next : State N where
  gen j := (s.gen j).next (s.genInput i j)
  fifo j := (s.fifo j).next depth (s.fifoInput i j)
  currentFlow := if s.switchTrigger i then s.nextFlow i else s.currentFlow
  switchGap := s.switchTrigger i

end State

/-- `flow_gen` with FIFOs of `depth` beats, whose memories hold `mem` and whose configuration is
`config` during reset. -/
def circuit {N : ℕ} (depth : ℕ) (mem : Fin N → ℕ → Beat) (config : Fin N → FlowConfig) :
    Circuit (Input N) (State N) where
  reset :=
    { gen := fun j ↦ { cyclesPkt := (config j).cyclesPerPkt }
      fifo := fun j ↦ { mem := mem j } }
  next := State.next depth

section

variable {N : ℕ} {s : State N} {i : Input N} {k : Fin N}

theorem oneHot_nextFlow (h : OneHot s.currentFlow) : OneHot (s.nextFlow i) := by
  unfold State.nextFlow
  split
  case h_1 j hj =>
    have hjN : j < N := by
      have hmem := List.mem_range'_1.mp (List.mem_of_find?_eq_some hj)
      omega
    obtain ⟨k, hk⟩ := oneHot_rotate h hjN
    have hc : s.candidate i j ≠ 0 := by simpa using List.find?_some hj
    have hck : s.candidate i j = BitVec.twoPow N k := by
      rw [State.candidate, hk, BitVec.and_assoc] at hc ⊢
      exact twoPow_and_of_ne_zero hc
    rw [hck]
    exact ⟨k, lsb_twoPow k⟩
  case h_2 => exact h

theorem oneHot_next (h : OneHot s.currentFlow) (depth : ℕ) : OneHot (s.next depth i).currentFlow := by
  simp only [State.next]
  split
  case isTrue => exact oneHot_nextFlow h
  case isFalse => exact h

theorem fifoTready_of_ne (hk : s.currentFlow = BitVec.twoPow N k) {j : Fin N} (hj : j ≠ k) :
    s.fifoTready i j = false := by
  have hoff : s.currentFlow.getLsbD j = false := by rw [hk, getLsbD_twoPow, decide_eq_false hj]
  simp only [State.fifoTready, hoff, Bool.false_and]

theorem output_eq (hk : s.currentFlow = BitVec.twoPow N k) : s.output i = s.flowOutput i k :=
  foldl_ite_of_unique (List.mem_finRange k)
    (fun j ↦ by rw [hk, getLsbD_twoPow, decide_eq_true_eq]) _ _

theorem currentFlowEmpty_iff (hk : s.currentFlow = BitVec.twoPow N k) :
    s.currentFlowEmpty = true ↔ (s.fifo k).mTvalid = false := by
  rw [State.currentFlowEmpty, hk, decide_eq_true_eq, ← not_iff_not, ← ne_eq]
  exact (twoPow_and_ne_zero k _).trans (by rw [State.fifoTvalid, getLsbD_bus, Bool.not_eq_false])

theorem packetComplete_iff (hk : s.currentFlow = BitVec.twoPow N k) :
    s.packetComplete i = true ↔
      s.fifoTready i k = true ∧ (s.fifo k).mTvalid = true ∧ (s.fifo k).mBeat.tlast = true := by
  rw [State.packetComplete, hk, decide_eq_true_eq, BitVec.and_assoc, BitVec.and_assoc]
  refine (twoPow_and_ne_zero k _).trans ?_
  simp only [BitVec.getLsbD_and, State.fifoTvalid, getLsbD_bus, Bool.and_eq_true]

theorem currentFlow_stays (hk : s.currentFlow = BitVec.twoPow N k) (hv : (s.fifo k).mTvalid = true)
    (hl : s.fifoTready i k = true → (s.fifo k).mBeat.tlast = false) (depth : ℕ) :
    (s.next depth i).currentFlow = BitVec.twoPow N k := by
  have he : s.currentFlowEmpty = false := by
    rw [← Bool.not_eq_true, currentFlowEmpty_iff hk, hv]
    exact Bool.true_eq_false_eq_False
  have hc : s.packetComplete i = false := by
    rw [← Bool.not_eq_true, packetComplete_iff hk]
    rintro ⟨hr, -, ht⟩
    rw [hl hr] at ht
    exact Bool.false_ne_true ht
  simp only [State.next, State.switchTrigger, he, hc, Bool.or_self, Bool.and_false,
    Bool.false_eq_true, if_false, hk]

end

end QdmaTrafficGen.FlowGen
