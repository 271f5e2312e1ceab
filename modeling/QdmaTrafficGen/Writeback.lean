import QdmaTrafficGen.Clocked.Fifo
import QdmaTrafficGen.Packages

namespace QdmaTrafficGen.Writeback

open Clocked

structure State where
  tx : Fifo Addr := .reset
  rto : Fifo Addr := .reset

structure Input where
  tcbAlloc : Addr → Bool
  tcbValidRx : Bool
  tcbAddrRx : Addr
  tcbValidTx : Bool
  tcbAddrTx : Addr
  tcbInTx : Tcb

/-- The combinational outputs; `path` is 1 for RX. -/
structure Output where
  fifoAdvanceTx : Bool := false
  fifoAdvanceRto : Bool := false
  path : Bool := false
  valid : Bool := false
  addr : Addr := 0
  deriving DecidableEq

variable (s : State) (i : Input)

def fifoWrEnTx : Bool := i.tcbValidTx && i.tcbInTx.backoffExp < 2

def fifoWrEnRto : Bool := i.tcbValidTx && i.tcbInTx.backoffExp ≥ 2

def output : Output :=
  if i.tcbValidRx then { addr := i.tcbAddrRx, valid := true, path := true }
  else if !s.rto.empty then
    -- an entry whose address is no longer allocated is dropped
    if i.tcbAlloc s.rto.dout then { fifoAdvanceRto := true, addr := s.rto.dout, valid := true }
    else { fifoAdvanceRto := true }
  else if !s.tx.empty then
    if i.tcbAlloc s.tx.dout then { fifoAdvanceTx := true, addr := s.tx.dout, valid := true }
    else { fifoAdvanceTx := true }
  else {}

def next : State where
  tx := s.tx.next 64 (if fifoWrEnTx i then some i.tcbAddrTx else none) (output s i).fifoAdvanceTx
  rto := s.rto.next 32 (if fifoWrEnRto i then some i.tcbAddrTx else none) (output s i).fifoAdvanceRto

theorem output_rx {s : State} {i : Input} (h : i.tcbValidRx = true) :
    output s i = { addr := i.tcbAddrRx, valid := true, path := true } := by
  simp only [output, h, if_true]

theorem output_path (s : State) (i : Input) : (output s i).path = i.tcbValidRx := by
  simp only [output]
  cases i.tcbValidRx
  · split_ifs <;> simp_all
  · rfl

end QdmaTrafficGen.Writeback
