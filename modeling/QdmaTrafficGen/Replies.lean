import QdmaTrafficGen.Handshake
import QdmaTrafficGen.Provenance
import Mathlib.Data.Set.Basic

namespace QdmaTrafficGen.TopLevel

open Clocked TcpCtrl

/-- The frame at the transmit port, whose `tvalid` is high if any bit of its data is. -/
def State.frame (s : State) : Option Header :=
  if s.c2hTdata = 0 then none else some (Datapath.decode s.c2hTdata)

def rtoInputs (u : ℕ → Input) (n : ℕ) : Rto.Input := (circuit.run u n).rtoInput

def source (u : ℕ → Input) (n : ℕ) : Option ℕ := Rto.source (rtoInputs u) n

/-- The frames that are built from the TCB that `tcp_ctrl` computes in cycle `k`. -/
def replies (u : ℕ → Input) (k : ℕ) : Set Header :=
  { h | ∃ n, source u n = some (k + 1) ∧ (circuit.run u (n + 1)).frame = some h }

section

variable {s : State} {i : Input} {e : Entry} {h : Header}

theorem out_eq_some : s.rto.out s.rtoInput = some e ↔ s.tcbRtoValid = true ∧ s.tcbRtoOut = e := by
  rw [Rto.State.out, Option.ite_none_right_eq_some, Option.some_inj]
  rfl

theorem frame_spec (hf : (s.next i).frame = some h) : ∃ e, s.rto.out s.rtoInput = some e ∧
    e.tcb.csrCurr.any = true ∧ h.endpoints = e.tcb.endpoints.swap ∧ h.tcpCsr = e.tcb.csrCurr := by
  rw [State.frame, Option.ite_none_left_eq_some] at hf
  obtain ⟨hne, hh⟩ := hf
  obtain ⟨hc, hv⟩ := Datapath.TxInput.tdataNext_ne_zero.mp hne
  obtain ⟨he, hcsr⟩ := Datapath.TxInput.decode_tdataNext hc hv s.c2hTdata
  rw [← Option.some.inj hh]
  exact ⟨s.tcbRtoOut, out_eq_some.mpr ⟨hv, rfl⟩, hc, he, hcsr⟩

theorem frame_of_out (ho : s.rto.out s.rtoInput = some e) (hc : e.tcb.csrCurr.any = true) :
    ∃ h, (s.next i).frame = some h := by
  obtain ⟨hv, rfl⟩ := out_eq_some.mp ho
  have hne : (s.next i).c2hTdata ≠ 0 := Datapath.TxInput.tdataNext_ne_zero.mpr ⟨hc, hv⟩
  exact ⟨_, if_neg hne⟩

end

section

variable (u : ℕ → Input)

theorem rto_run (n : ℕ) : (circuit.run u n).rto = Rto.circuit.run (rtoInputs u) n := by
  induction n with
  | zero => rfl
  | succ n ih =>
    rw [run_succ, Rto.run_succ, ← ih]
    rfl

theorem out_eq_written (n : ℕ) : (circuit.run u n).rto.out (circuit.run u n).rtoInput =
    (source u n).map fun w ↦ ⟨(circuit.run u w).tcbMgr.tcpCtrlAddr, (circuit.run u w).tcbMgr.tcbOutTx⟩ := by
  rw [rto_run]
  exact Rto.out_eq_source (u := rtoInputs u) rfl

variable {u} {k : ℕ} {h : Header}

theorem source_past {n w : ℕ} (hs : source u n = some w) :
    w < n ∧ (circuit.run u w).tcbMgr.tcpCtrlValid = true :=
  (Rto.source_past hs).imp_right Rto.Enters.write

theorem reply_spec (hh : h ∈ replies u k) : (circuit.run u k).tcbMgr.wbValidD = true ∧
    h.endpoints = (circuit.run u k).tcbMgr.update.tcb.endpoints.swap ∧
    h.tcpCsr = (circuit.run u k).tcbMgr.update.tcb.csrCurr ∧ h.tcpCsr.any = true := by
  obtain ⟨n, hs, hf⟩ := hh
  have hv : (circuit.run u k).tcbMgr.wbValidD = true := (source_past hs).2
  obtain ⟨e, ho, ha, he, hc⟩ := frame_spec hf
  rw [out_eq_written, hs, Option.map_some] at ho
  have htcb := tcbOutTx_run hv
  rw [← hc] at ha
  rw [← Option.some.inj ho, htcb] at he hc
  exact ⟨hv, he, hc, ha⟩

/-- A segment whose only flag is ACK gets no reply, as its cancel keeps the TCB out of the queue. -/
theorem reply_not_ack {hdr : Header} (hp : (circuit.run u k).processing = some hdr)
    (hh : h ∈ replies u k) : hdr.tcpCsr ≠ .ACK := by
  obtain ⟨n, hs, -⟩ := hh
  have hv := (processing_eq_some.mp hp).1
  have hu := update_of_processing hp
  have htcb := tcbOutTx_run hv
  have ht : Rto.timed (rtoInputs u (k + 1)).tcbDataIn = false := by
    refine (congrArg Rto.timed htcb).trans ?_
    rw [hu]
    rfl
  intro hc
  have hcancel : (rtoInputs u (k + 1)).cancelRto = true := by
    refine (congrArg Update.cancelRto hu).trans ?_
    rw [ingress, hc]
    rfl
  rcases (Rto.source_past hs).2 with he | he
  · rw [Rto.hpDin, hcancel] at he
    exact he rfl
  · rw [Rto.State.arms, ht, Bool.and_false] at he
    exact Bool.false_ne_true he

theorem exists_reply (hv : (circuit.run u k).tcbMgr.wbValidD = true)
    (hc : (circuit.run u k).tcbMgr.update.cancelRto = false)
    (ht : Rto.timed (circuit.run u k).tcbMgr.update.tcb = false)
    (ha : (circuit.run u k).tcbMgr.update.tcb.csrCurr.any = true)
    (hq : (circuit.run u (k + 1)).rto.priorityQueue.full 32 = false) : ∃ h, h ∈ replies u k := by
  have htcb := tcbOutTx_run hv
  have hpush : (Rto.circuit.run (rtoInputs u) (k + 1)).priorityQueue.pushed 32
      (Rto.hpDin (rtoInputs u (k + 1))) ≠ none := by
    have hw : (rtoInputs u (k + 1)).write = true := hv
    have hc' : (rtoInputs u (k + 1)).cancelRto = false := hc
    have ht' : Rto.timed (rtoInputs u (k + 1)).tcbDataIn = false :=
      (congrArg Rto.timed htcb).trans ht
    rw [Fifo.pushed, ← rto_run, hq, if_neg Bool.false_ne_true, Rto.hpDin, hw, hc', ht']
    exact Option.some_ne_none _
  obtain ⟨n, hs⟩ := Rto.exists_source (fun _ ↦ rfl) hpush
  have ho := out_eq_written u n
  rw [source, hs, Option.map_some] at ho
  obtain ⟨h, hf⟩ := frame_of_out (i := u n) ho (htcb ▸ ha)
  exact ⟨h, n, hs, hf⟩

end

end QdmaTrafficGen.TopLevel
