import QdmaTrafficGen.Clocked.Fifo
import QdmaTrafficGen.Packages

namespace QdmaTrafficGen.Rto

open Clocked

abbrev Wheel := BitVec 7

/-- The registers of `rto` and of its `tx_arbiter`, and the contents of the priority queue. -/
structure State where
  usTick : BitVec 6 := 0
  tick : Bool := false
  rdPtr : Wheel := 0
  timerWheel : Wheel → Option Entry := fun _ ↦ none
  mapping : Addr → Option Wheel := fun _ ↦ none
  priorityQueue : Fifo Entry := .reset
  quota : BitVec 3 := 0

structure Input where
  cancelRto : Bool := false
  write : Bool := false
  tcbAddrIn : Addr := 0
  tcbDataIn : Tcb := 0
  txDatapathReady : Bool := true

/-- A TCB that waits for a timer; all others are sent with priority. -/
def timed (tcb : Tcb) : Bool := tcb.nextSendTime != 0 && tcb.csrCurr != .RST

/-- The write port of the priority queue, `hp_wr_en` and `hp_din`. -/
def hpDin (i : Input) : Option Entry :=
  if !i.cancelRto && i.write && !timed i.tcbDataIn then some ⟨i.tcbAddrIn, i.tcbDataIn⟩ else none

structure Arbiter where
  grantHp : Bool := false
  grantLp : Bool := false
  entry : Entry := {}

namespace State

variable (s : State) (i : Input)

def hpValid : Bool := !s.priorityQueue.empty

def timerWheelVal : Option Entry := s.timerWheel s.rdPtr

def overQuota : Bool := 4 < s.quota

def arbiter : Arbiter :=
  if i.txDatapathReady then
    if s.overQuota then
      match s.timerWheelVal with
      | some e => { grantLp := true, entry := e }
      | none => if s.hpValid then { grantHp := true, entry := s.priorityQueue.dout } else {}
    else if s.hpValid then { grantHp := true, entry := s.priorityQueue.dout }
    else
      match s.timerWheelVal with
      | some e => { grantLp := true, entry := e }
      | none => {}
  else {}

def tcbAddrOutValid : Bool :=
  (s.hpValid || s.timerWheelVal.isSome && s.tick) && i.txDatapathReady

def out : Option Entry := if s.tcbAddrOutValid i then some (s.arbiter i).entry else none

def quotaNext : BitVec 3 :=
  if s.overQuota then if (s.arbiter i).grantLp then 0 else s.quota
  else if (s.arbiter i).grantHp then s.quota + 1
  else if (s.arbiter i).grantLp then 0
  else s.quota

def slotIdx : Wheel :=
  if i.cancelRto then (s.mapping i.tcbAddrIn).getD (s.rdPtr + 1)
  else if i.write && timed i.tcbDataIn then
    s.rdPtr + i.tcbDataIn.nextSendTime.setWidth 7 <<< i.tcbDataIn.backoffExp
  else s.rdPtr + 1

/-- An occupied slot spills to the next one. -/
def slot : Wheel := if (s.timerWheel (s.slotIdx i)).isSome then s.slotIdx i + 1 else s.slotIdx i

def cancels : Bool := i.cancelRto && (s.mapping i.tcbAddrIn).isSome

def arms : Bool := !s.cancels i && i.write && timed i.tcbDataIn

def timerWheelNext : Wheel → Option Entry :=
  let edited :=
    if s.cancels i then Function.update s.timerWheel (s.slotIdx i) none
    else if s.arms i then
      Function.update s.timerWheel (s.slot i) (some ⟨i.tcbAddrIn, i.tcbDataIn⟩)
    else s.timerWheel
  if s.tick then Function.update edited s.rdPtr none else edited

def mappingNext : Addr → Option Wheel :=
  if s.cancels i then Function.update s.mapping i.tcbAddrIn none
  else if s.arms i then Function.update s.mapping i.tcbAddrIn (some (s.slot i))
  else s.mapping

def next : State where
  usTick := s.usTick + 1
  tick := s.usTick == 63
  rdPtr := if s.tick then s.rdPtr + 1 else s.rdPtr
  timerWheel := s.timerWheelNext i
  mapping := s.mappingNext i
  priorityQueue :=
    s.priorityQueue.next 32 (hpDin i) ((s.arbiter i).grantHp && i.txDatapathReady)
  quota := s.quotaNext i

end State

def circuit : Circuit Input State := ⟨{}, State.next⟩

theorem run_succ (u : ℕ → Input) (n : ℕ) :
    circuit.run u (n + 1) = (circuit.run u n).next (u n) := rfl

section

variable (u : ℕ → Input) (n : ℕ)

theorem usTick_run : (circuit.run u n).usTick = BitVec.ofNat 6 n := by
  induction n with
  | zero => rfl
  | succ n ih =>
    rw [run_succ]
    simp only [State.next, ih, BitVec.ofNat_add]
    rfl

theorem tick_run : (circuit.run u (n + 1)).tick = true ↔ n % 64 = 63 := by
  rw [run_succ]
  simp only [State.next, usTick_run, beq_iff_eq, ← BitVec.toNat_inj, BitVec.toNat_ofNat]
  rfl

theorem rdPtr_run : (circuit.run u (n + 1)).rdPtr = BitVec.ofNat 7 (n / 64) := by
  induction n with
  | zero => rfl
  | succ n ih =>
    rw [run_succ]
    simp only [State.next, ih, tick_run]
    split_ifs with ht
    · rw [show (n + 1) / 64 = n / 64 + 1 by omega, BitVec.ofNat_add]
      rfl
    · rw [show (n + 1) / 64 = n / 64 by omega]

end

end QdmaTrafficGen.Rto
