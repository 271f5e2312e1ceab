import QdmaTrafficGen.Clocked.Run

namespace QdmaTrafficGen.AxiSt

open Clocked

/-- The C2H stream of `axi_st_module` in one cycle, with what decides on the packets and with the full
flag of `cmpt_qid_fifo`. -/
structure Input where
  tvalid : Bool := false
  tready : Bool := true
  tlast : Bool := false
  currPktSize : BitVec 16 := 0
  c2hQid : BitVec 11 := 0
  c2hControl : BitVec 32 := 0
  c2hDscBypass : BitVec 2 := 0
  pfchBypTagQid : BitVec 11 := 0
  cmptTready : Bool := true
  qidFifoFull : Bool := false

structure State where
  tvalidD1 : Bool := false
  startImm : Bool := false

structure Completion where
  pktSize : BitVec 16
  qid : BitVec 11
  deriving DecidableEq, Repr

def Input.din (i : Input) : Completion := ⟨i.currPktSize, i.c2hQid⟩

def Input.ctrlQid (i : Input) : BitVec 11 := if i.c2hDscBypass = 2 then i.pfchBypTagQid else i.c2hQid

namespace State

variable (D : ℕ) (s : State) (i : Input)

/-- Immediate data and markers are one beat long, of `D` bits. -/
def ctrlLen : BitVec 16 :=
  if s.startImm || i.c2hControl.getLsbD 5 then BitVec.ofNat 16 (D / 8) else i.currPktSize

/-- The length and the queue with which a packet goes to the QDMA. -/
def onStream : Completion := ⟨s.ctrlLen D i, i.ctrlQid⟩

def rxBegin : Bool := i.tvalid && !s.tvalidD1

/-- What is written to `cmpt_qid_fifo`, which ignores a write when it is full. -/
def written : Option Completion := if s.rxBegin i && !i.qidFifoFull then some i.din else none

def next : State where
  tvalidD1 := i.tvalid
  startImm := if i.c2hControl.getLsbD 2 then true else if i.cmptTready then false else s.startImm

end State

def circuit : Circuit Input State := ⟨{}, State.next⟩

section

variable (u : ℕ → Input)

/-- Whether a packet has begun whose last beat has not been transferred yet. -/
def underWay : ℕ → Bool
  | 0 => false
  | n + 1 => if (u n).tvalid then !((u n).tready && (u n).tlast) else underWay n

def begins (n : ℕ) : Bool := (u n).tvalid && !underWay u n

def packetNo (n : ℕ) : ℕ := Nat.count (fun k ↦ begins u k = true) (n + 1)

/-- The packets of the stream before cycle `n`, each with its size and its queue. -/
def packets (D n : ℕ) : List (ℕ × Completion) :=
  collect (fun k ↦ if begins u k then
    some (packetNo u k, (circuit.run u k).onStream D (u k)) else none) n

/-- The words that `cmpt_qid_fifo` receives before cycle `n`, each with the packet that caused it. -/
def received (n : ℕ) : List (ℕ × Completion) :=
  collect (fun k ↦ ((circuit.run u k).written (u k)).map (packetNo u k, ·)) n

/-- Before the first beat of a packet `tvalid` is low, and it does not return inside a packet. -/
def Separated : Prop :=
  ∀ n, (u (n + 1)).tvalid = true → ((u n).tvalid = false ↔ underWay u (n + 1) = false)

end

section

variable {u : ℕ → Input} {D : ℕ}

end

end QdmaTrafficGen.AxiSt
