import QdmaTrafficGen.Replies

namespace QdmaTrafficGen.TopLevel

open Clocked TcpCtrl

/-- A segment with the RST flag is not answered with a reset. -/
def NoReset (u : ℕ → Input) (k : ℕ) : Prop :=
  ∀ hdr, (circuit.run u k).processing = some hdr → hdr.tcpCsr.rst = true →
    (circuit.run u k).tcbMgr.update.tcb.csrCurr ≠ .RST ∧ ∀ h ∈ replies u k, h.tcpCsr.rst = false

/-- The states and the flags with RST to which `tcp_fsm` objects. -/
def Objects (curr : TcpState) (rx : TcpCsr) : Prop :=
  (curr = .listen ∨ curr = .synRecv) ∧ rx ≠ .RST ∨
    curr = .established ∧ rx.syn = true ∧ rx.fin = false

instance (curr : TcpState) (rx : TcpCsr) : Decidable (Objects curr rx) :=
  inferInstanceAs (Decidable (_ ∨ _))

def Tolerates (s : State) : Prop :=
  ∀ hdr, s.processing = some hdr → hdr.tcpCsr.rst = true → ¬Objects s.curr hdr.tcpCsr

instance (s : State) : Decidable (Tolerates s) :=
  inferInstanceAs (Decidable (∀ hdr ∈ s.processing, _ → _))

section

variable {t : Tcb} {new : Bool} {hdr : Header}

theorem reply_rst : ∀ {curr : TcpState} {rx : TcpCsr},
    (reply curr rx).1.rst = true → (reply curr rx).1 = .RST := by
  rintro curr ⟨syn, ack, rst, fin⟩
  cases curr <;> cases syn <;> cases ack <;> cases rst <;> cases fin <;> decide

theorem reply_of_rst : ∀ {curr : TcpState} {rx : TcpCsr}, rx.rst = true →
    ((reply curr rx).1 = .RST ↔ Objects curr rx) := by
  rintro curr ⟨syn, ack, rst, fin⟩ (rfl : rst = true)
  cases curr <;> cases syn <;> cases ack <;> cases fin <;> decide

theorem reply_to_rst (curr : TcpState) : (reply curr .RST).1 = .none := by cases curr <;> rfl

theorem csrCurr_rst (h : (ingress new hdr t).tcb.csrCurr.rst = true) :
    (ingress new hdr t).tcb.csrCurr = .RST := by
  simp only [ingress] at h ⊢
  split at h
  case isTrue hr => rw [if_pos hr]
  case isFalse hr =>
    rw [if_neg hr]
    exact reply_rst h

theorem csrCurr_of_rst (h : hdr.tcpCsr.rst = true) :
    (ingress new hdr t).tcb.csrCurr = .RST ↔ Objects (currOf new t) hdr.tcpCsr := by
  simp only [ingress]
  split
  case isFalse => exact reply_of_rst h
  case isTrue hr =>
    simp only [refuses, Bool.and_eq_true, beq_iff_eq] at hr
    obtain ⟨⟨hack, hc⟩, -⟩ := hr
    refine iff_of_true rfl (.inl ⟨.inr hc, fun he ↦ ?_⟩)
    rw [he] at hack
    exact Bool.false_ne_true hack

end

theorem noReset_iff {u : ℕ → Input} {k : ℕ} : NoReset u k ↔ Tolerates (circuit.run u k) := by
  refine forall_congr' fun hdr ↦ forall_congr' fun hp ↦ forall_congr' fun hr ↦ ?_
  rw [State.curr, ← csrCurr_of_rst hr, ← update_of_processing hp]
  refine ⟨And.left, fun hne ↦ ⟨hne, fun h hh ↦ ?_⟩⟩
  rw [(reply_spec hh).2.2.1, ← Bool.not_eq_true]
  rw [update_of_processing hp] at hne ⊢
  exact fun hc ↦ hne (csrCurr_rst hc)

/-- Resets are not answered with resets for exactly as long as none comes with other flags in LISTEN
or SYN_RECV, or with SYN and without FIN in ESTABLISHED. -/
theorem noReset_run_iff (u : ℕ → Input) (n : ℕ) :
    (∀ k < n, NoReset u k) ↔ ∀ k < n, Tolerates (circuit.run u k) :=
  forall₂_congr fun _ _ ↦ noReset_iff

def PureRst (t : Tcb) : Prop := t.csrCurr.rst = true → t.csrCurr = .RST

theorem pureRst_egress {t : Tcb} (h : PureRst t) : PureRst (egress t).tcb := by
  simp only [egress]
  split_ifs
  · exact h
  · exact fun _ ↦ rfl
  · exact h

section

variable {u : ℕ → Input} {n k : ℕ}

theorem pureRst_zero : PureRst 0 := fun h ↦ absurd h Bool.false_ne_true

theorem pureRst_run (hr : ∀ k < n, ReadsWord (circuit.run u k) (u k)) (a : Addr) :
    Everywhere a PureRst (circuit.run u n) := by
  have ho : ∀ k, PureRst (circuit.run u k).tcbMgr.newPacketTcb :=
    newPacketTcb_run pureRst_zero (fun _ _ _ h ↦ absurd h Bool.false_ne_true) u
  refine everywhere_run pureRst_zero ho hr fun k _ hv _ ht ↦ ?_
  cases hp : (circuit.run u k).tcbMgr.pathD with
  | true =>
    rw [update_of_processing (processing_eq_some.mpr ⟨hv, hp, rfl⟩)]
    exact csrCurr_rst
  | false =>
    rw [update_of_tx hv hp]
    exact pureRst_egress ht

/-- Two stacks do not go on resetting each other: a reset that one of them sends has no other flag,
and such a reset gets no frame in return. -/
theorem resets_end (hr : ∀ k < n, ReadsWord (circuit.run u k) (u k)) :
    (∀ k ≤ n, ∀ h, (circuit.run u (k + 1)).frame = some h → h.tcpCsr.rst = true → h.tcpCsr = .RST) ∧
      ∀ k hdr, (circuit.run u k).processing = some hdr → hdr.tcpCsr = .RST → replies u k = ∅ := by
  refine ⟨fun k hk h hf hc ↦ ?_, fun k hdr hp hc ↦ ?_⟩
  · obtain ⟨e, ho, -, -, hcsr⟩ := frame_spec hf
    have hpure : Everywhere e.addr PureRst (circuit.run u k) :=
      pureRst_run (fun j hj ↦ hr j (by omega)) e.addr
    rw [hcsr] at hc ⊢
    rcases out_source ho with hq | hw
    · exact hpure.queued e hq rfl hc
    · exact hpure.waiting _ e hw rfl hc
  · refine Set.eq_empty_iff_forall_notMem.mpr fun h hh ↦ ?_
    obtain ⟨-, -, hcsr, ha⟩ := reply_spec hh
    have hnone : (circuit.run u k).tcbMgr.update.tcb.csrCurr = .none := by
      have hno : ¬refuses (circuit.run u k).tcbMgr.newPacketD2 hdr.tcpCsr
          (circuit.run u k).tcbMgr.tcbIn = true := by
        rw [hc]
        exact Bool.false_ne_true
      rw [update_of_processing hp]
      refine (if_neg hno).trans ?_
      rw [hc]
      exact reply_to_rst _
    rw [hcsr, hnone] at ha
    exact Bool.false_ne_true ha

end

/-- A connection is reset with an ACK, and then once more. -/
def resetTwice : ℕ → Input
  | 0 => { h2cTdata := Datapath.segment 1000 0 2, h2cTvalid := true }
  | 7 => { h2cTdata := Datapath.segment 1001 2 20, h2cTvalid := true }
  | 11 => { h2cTdata := Datapath.segment 1001 0 4, h2cTvalid := true }
  | _ => {}

theorem resets_end_twice : (∃ h, (circuit.run resetTwice 14).frame = some h ∧ h.tcpCsr = .RST) ∧
    replies resetTwice 15 = ∅ := by
  have hrun : (∀ k < 13, ReadsWord (circuit.run resetTwice k) (resetTwice k)) ∧
      ((circuit.run resetTwice 14).frame.any fun h ↦ h.tcpCsr.rst) = true ∧
      (circuit.run resetTwice 15).processing = some (circuit.run resetTwice 15).tcbMgr.headerOutD ∧
      (circuit.run resetTwice 15).tcbMgr.headerOutD.tcpCsr = .RST := by decide +kernel
  obtain ⟨hwords, hframe, hproc, hcsr⟩ := hrun
  obtain ⟨hpure, hnone⟩ := resets_end hwords
  obtain ⟨h, hf, hrst⟩ := (Option.any_eq_true ..).1 hframe
  exact ⟨⟨h, hf, hpure 13 le_rfl h hf hrst⟩, hnone 15 _ hproc hcsr⟩

def aborted (n : ℕ) : Input :=
  if n = 0 then { h2cTdata := Datapath.segment 1000 0 2, h2cTvalid := true }
  else if n = 7 then { h2cTdata := Datapath.segment 1001 2 20, h2cTvalid := true }
  else {}

/-- The segment is answered with a reset in SYN_RECV. -/
theorem aborted_reset : ¬∀ k, NoReset aborted k := by
  have hrun : (circuit.run aborted 11).processing = some (circuit.run aborted 11).tcbMgr.headerOutD ∧
      (circuit.run aborted 11).tcbMgr.headerOutD.tcpCsr.rst = true ∧
      (circuit.run aborted 11).tcbMgr.update.tcb.csrCurr = .RST := by decide +kernel
  exact fun h ↦ (h 11 _ hrun.1 hrun.2.1).1 hrun.2.2

end QdmaTrafficGen.TopLevel
