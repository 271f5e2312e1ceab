import QdmaTrafficGen.ReplyEndpoints

namespace QdmaTrafficGen.TopLevel

open Clocked TcpCtrl

namespace State

variable (s : State) (i : Input) (a : Addr)

def Grants : Prop :=
  (s.tcbMgr.wbOutput (s.tcbMgrInput i)).valid = true ∧ (s.tcbMgr.wbOutput (s.tcbMgrInput i)).addr = a

def Updates : Prop :=
  s.tcbMgr.wbValidD = true ∧ s.tcbMgr.wbAddrD = a ∧ s.tcbMgr.newPacketD2 = false

/-- The TCB of `a` is written to the memory and handed to `rto`. -/
def Writes : Prop := s.tcbMgr.tcpCtrlValid = true ∧ s.tcbMgr.tcpCtrlAddr = a

instance : Decidable (s.Grants i a) := inferInstanceAs (Decidable (_ ∧ _))

instance : Decidable (s.Updates a) := inferInstanceAs (Decidable (_ ∧ _ ∧ _))

end State

inductive Copy
  | stored
  | loaded
  | sent

/-- The copies of the TCB of `a` that, in cycle `n`, derive from the TCB that `a` held when it was
invalidated in cycle `k`. -/
inductive Old (u : ℕ → Input) (k : ℕ) (a : Addr) : Copy → ℕ → Prop
  | held : Old u k a .stored k
  | loaded : (circuit.run u k).Updates a → Old u k a .loaded k
  | last : Old u k a .sent k
  | stays {n : ℕ} : Old u k a .stored n → ¬(circuit.run u n).Writes a → Old u k a .stored (n + 1)
  | read {n : ℕ} : Old u k a .stored n → (circuit.run u n).Grants (u n) a → Old u k a .loaded (n + 1)
  | updated {n : ℕ} : Old u k a .loaded n → (circuit.run u n).Updates a → Old u k a .sent (n + 1)
  | written {n : ℕ} : Old u k a .sent n → (circuit.run u n).Writes a →
      (circuit.run u n).tcbMgr.invalidate = false → Old u k a .stored (n + 1)
  | forwarded {n : ℕ} : Old u k a .sent n → (circuit.run u n).Writes a →
      (circuit.run u n).tcbMgr.invalidate = false → (circuit.run u n).Grants (u n) a →
      Old u k a .loaded (n + 1)

/-- In cycle `m`, after the invalidation in cycle `k`, the transmit path builds a frame from what
`rto` took in in cycle `w`, a TCB that the address held before. -/
structure Ghost (u : ℕ → Input) (k w m : ℕ) : Prop where
  after : k < m
  source : source u m = some w
  addr : (circuit.run u w).tcbMgr.tcpCtrlAddr = (circuit.run u k).tcbMgr.tcpCtrlAddr
  any : (circuit.run u w).tcbMgr.tcbOutTx.csrCurr.any = true
  old : w < k ∨ Old u k (circuit.run u k).tcbMgr.tcpCtrlAddr .sent w

/-- After the invalidation in cycle `k`, at most one frame is built from a TCB that the address held
before: the RST of the event that invalidates it. -/
def Silenced (u : ℕ → Input) (k : ℕ) : Prop :=
  ∀ w m, Ghost u k w m → w = k ∧ (circuit.run u k).tcbMgr.tcbOutTx.csrCurr = .RST ∧
    ∀ j < m, source u j ≠ some k

/-- An invalidation finds neither an entry of its address that could still be sent nor another
update of its address on its way. -/
structure Clean (s : State) (i : Input) : Prop where
  queued : ∀ e ∈ s.rto.priorityQueue.remaining (s.rto.pops s.rtoInput),
    e.addr = s.tcbMgr.tcpCtrlAddr → e.tcb.csrCurr.any = false
  waiting : ∀ x e, s.rto.timerWheel x = some e → e.addr = s.tcbMgr.tcpCtrlAddr →
    e.tcb.csrCurr.any = true → s.rto.tick = true ∧ x = s.rto.rdPtr ∨
      s.rto.cancels s.rtoInput = true ∧ x = s.rto.slotIdx s.rtoInput
  updating : ¬s.Updates s.tcbMgr.tcpCtrlAddr
  granting : s.Grants i s.tcbMgr.tcpCtrlAddr → s.tcbMgr.newPacketD = true

section

variable {t : Tcb} {new : Bool} {hdr : Header}

theorem reply_invalidate : ∀ {curr : TcpState} {rx : TcpCsr},
    (reply curr rx).2 = true → (reply curr rx).1.any = true → (reply curr rx).1 = .RST := by
  rintro curr ⟨syn, ack, rst, fin⟩
  cases curr <;> cases syn <;> cases ack <;> cases rst <;> cases fin <;> decide

theorem ingress_invalidate (hi : (ingress new hdr t).invalidate = true)
    (ha : (ingress new hdr t).tcb.csrCurr.any = true) : (ingress new hdr t).tcb.csrCurr = .RST := by
  simp only [ingress] at hi ha ⊢
  split at ha
  case isTrue hr => exact if_pos hr
  case isFalse hr =>
    rw [if_neg hr]
    exact reply_invalidate hi ha

theorem egress_invalidate (hi : (egress t).invalidate = true) : (egress t).tcb.csrCurr = .RST := by
  simp only [egress] at hi ⊢
  split at hi
  case isTrue => exact absurd hi Bool.false_ne_true
  case isFalse h0 =>
    split at hi
    case isTrue h4 => rw [if_neg h0, if_pos h4]
    case isFalse => exact absurd hi Bool.false_ne_true

theorem wbValidD_of_invalidate {s : TcbMgr.State} (hi : s.update.invalidate = true) :
    s.wbValidD = true := by
  by_contra hv
  rw [TcbMgr.State.update, if_neg hv] at hi
  exact Bool.false_ne_true hi

theorem csrCurr_of_invalidate {s : TcbMgr.State} (hi : s.update.invalidate = true)
    (ha : s.update.tcb.csrCurr.any = true) : s.update.tcb.csrCurr = .RST := by
  have hv := wbValidD_of_invalidate hi
  rw [TcbMgr.State.update, if_pos hv] at hi ha ⊢
  split at hi
  case isTrue hp =>
    rw [if_pos hp] at ha ⊢
    exact ingress_invalidate hi ha
  case isFalse hp =>
    rw [if_neg hp]
    exact egress_invalidate hi

end

section

variable {u : ℕ → Input} {k : ℕ}

theorem invalidate_writes (hi : (circuit.run u k).tcbMgr.invalidate = true) :
    (circuit.run u k).Writes (circuit.run u k).tcbMgr.tcpCtrlAddr := by
  cases k with
  | zero => exact absurd hi Bool.false_ne_true
  | succ k => exact ⟨wbValidD_of_invalidate (s := (circuit.run u k).tcbMgr) hi, rfl⟩

theorem invalidate_csrCurr (hi : (circuit.run u k).tcbMgr.invalidate = true)
    (ha : (circuit.run u k).tcbMgr.tcbOutTx.csrCurr.any = true) :
    (circuit.run u k).tcbMgr.tcbOutTx.csrCurr = .RST := by
  cases k with
  | zero => exact absurd hi Bool.false_ne_true
  | succ k =>
    have hv := wbValidD_of_invalidate (s := (circuit.run u k).tcbMgr) hi
    rw [tcbOutTx_run hv] at ha ⊢
    exact csrCurr_of_invalidate hi ha

theorem old_run (hi : (circuit.run u k).tcbMgr.invalidate = true)
    (hc : Clean (circuit.run u k) (u k)) {c : Copy} {n : ℕ}
    (h : Old u k (circuit.run u k).tcbMgr.tcpCtrlAddr c n) : match c with
      | .stored | .sent => n = k
      | .loaded => ¬(circuit.run u n).Updates (circuit.run u k).tcbMgr.tcpCtrlAddr := by
  induction h with
  | held => rfl
  | loaded => exact hc.updating
  | last => rfl
  | @stays n _ hw ih =>
    have hn : n = k := ih
    rw [hn] at hw
    exact absurd (invalidate_writes hi) hw
  | @read n _ hg ih =>
    have hn : n = k := ih
    rintro ⟨-, -, hnew⟩
    rw [hn] at hg hnew
    exact Bool.noConfusion ((hc.granting hg).symm.trans hnew)
  | updated _ hu ih => exact absurd hu ih
  | @written n _ _ hno ih =>
    have hn : n = k := ih
    rw [hn, hi] at hno
    exact Bool.noConfusion hno
  | @forwarded n _ _ hno _ ih =>
    have hn : n = k := ih
    rw [hn, hi] at hno
    exact Bool.noConfusion hno

structure Spent (u : ℕ → Input) (k : ℕ) (t : Rto.Stamps) : Prop where
  queue : ∀ w ∈ t.queue.contents, w < k →
    (circuit.run u w).tcbMgr.tcpCtrlAddr = (circuit.run u k).tcbMgr.tcpCtrlAddr →
      (circuit.run u w).tcbMgr.tcbOutTx.csrCurr.any = false
  wheel : ∀ x w, t.wheel x = some w → w < k →
    (circuit.run u w).tcbMgr.tcpCtrlAddr = (circuit.run u k).tcbMgr.tcpCtrlAddr →
      (circuit.run u w).tcbMgr.tcbOutTx.csrCurr.any = false

theorem spent_next {t : Rto.Stamps} {s : Rto.State} {i : Rto.Input} {n : ℕ} (h : Spent u k t)
    (hn : k ≤ n) : Spent u k (t.next s i n) := by
  refine ⟨fun w hw hk ↦ ?_, fun x w hw hk ↦ ?_⟩
  · rcases Rto.queue_next hw with ⟨rfl, -⟩ | hw
    · omega
    · exact h.queue w (Fifo.remaining_sublist.subset hw) hk
  · rcases Rto.wheel_next hw with ⟨rfl, -⟩ | ⟨hw, -⟩
    · omega
    · exact h.wheel x w hw hk

theorem spent_first (hc : Clean (circuit.run u k) (u k)) :
    Spent u k (Rto.stamps (rtoInputs u) (k + 1)) := by
  have hq := Rto.queue_stamps (rtoInputs u) k
  have hw := Rto.wheel_stamps (rtoInputs u) k
  rw [← rto_run] at hq hw
  refine ⟨fun w hw' hk ha ↦ ?_, fun x w hw' hk ha ↦ ?_⟩
  · rcases Rto.queue_next hw' with ⟨rfl, -⟩ | hw'
    · omega
    · refine hc.queued (Rto.written (rtoInputs u) w) ?_ ha
      rw [Fifo.remaining_map hq]
      rw [← rto_run] at hw'
      exact List.mem_map_of_mem hw'
  · rcases Rto.wheel_next hw' with ⟨rfl, -⟩ | ⟨hw', hexp, hcan⟩
    · omega
    · by_contra hany
      rw [← rto_run] at hexp hcan
      have he : (circuit.run u k).rto.timerWheel x = some (Rto.written (rtoInputs u) w) := by
        rw [hw, Function.comp_apply, hw', Option.map_some]
      rcases hc.waiting x _ he ha (Bool.not_eq_false _ ▸ hany) with h | h
      · exact hexp h
      · exact hcan h

theorem spent_run (hc : Clean (circuit.run u k) (u k)) {n : ℕ} (hn : k < n) :
    Spent u k (Rto.stamps (rtoInputs u) n) := by
  induction n, hn using Nat.le_induction with
  | base => exact spent_first hc
  | succ n hn ih => exact spent_next ih (by omega)

theorem silenced (hi : (circuit.run u k).tcbMgr.invalidate = true)
    (hc : Clean (circuit.run u k) (u k)) : Silenced u k := by
  intro w m hg
  have hold : w = k := by
    rcases hg.old with hw | hold
    · have hs := spent_run hc hg.after
      have hno : (circuit.run u w).tcbMgr.tcbOutTx.csrCurr.any = false := by
        rcases Rto.source_eq_some hg.source with hq | ⟨x, hx⟩
        · exact hs.queue w hq hw hg.addr
        · exact hs.wheel x w hx hw hg.addr
      exact absurd (hg.any.symm.trans hno) (by decide)
    · exact old_run hi hc hold
  subst hold
  have hrst := invalidate_csrCurr hi hg.any
  refine ⟨rfl, hrst, fun j hj hs ↦ ?_⟩
  have hq : Rto.hpDin (rtoInputs u w) ≠ none := by
    refine (Rto.source_past hs).2.resolve_right fun ha ↦ ?_
    have ht : Rto.timed (rtoInputs u w).tcbDataIn = false := by
      rw [Rto.timed, show (rtoInputs u w).tcbDataIn.csrCurr = .RST from hrst, bne_self_eq_false,
        Bool.and_false]
    rw [Rto.State.arms, ht, Bool.and_false] at ha
    exact Bool.false_ne_true ha
  exact Rto.source_once rfl hs hq hj hg.source

/-- As long as invalidations come when nothing of their address is left to be sent or on its way, no
frame is built from an invalidated TCB any more, apart from the RST that invalidates it. -/
theorem no_ghosts {n : ℕ} (hc : ∀ k < n, (circuit.run u k).tcbMgr.invalidate = true →
    Clean (circuit.run u k) (u k)) :
    ∀ k < n, (circuit.run u k).tcbMgr.invalidate = true → Silenced u k :=
  fun k hk hi ↦ silenced hi (hc k hk hi)

theorem waiting_armed {n : ℕ} {x : Rto.Wheel} {e : Entry}
    (he : (circuit.run u n).rto.timerWheel x = some e) :
    ∃ w < n, (circuit.run u w).tcbMgr.tcpCtrlValid = true ∧
      Rto.timed (circuit.run u w).tcbMgr.tcbOutTx = true ∧
        x = (circuit.run u w).rto.slot (circuit.run u w).rtoInput := by
  rw [rto_run, Rto.wheel_stamps, Function.comp_apply, Option.map_eq_some_iff] at he
  obtain ⟨w, hw, -⟩ := he
  obtain ⟨hn, ha, hx⟩ := (Rto.past_stamps (rtoInputs u) n).wheel x w hw
  simp only [Rto.State.arms, Bool.and_eq_true] at ha
  exact ⟨w, hn, ha.1.2, ha.2, by rwa [rto_run]⟩

end

/-- A connection is established and then reset. -/
def dropped : ℕ → Input
  | 0 => { h2cTdata := Datapath.segment 1000 0 2, h2cTvalid := true }
  | 7 => { h2cTdata := Datapath.segment 1001 0 16, h2cTvalid := true }
  | 10 => { h2cTdata := Datapath.segment 1001 0 4, h2cTvalid := true }
  | _ => {}

theorem dropped_silenced : ((circuit.run dropped 15).tcbMgr.tcb 0).tcpCurr = .established ∧
    (circuit.run dropped 15).tcbMgr.invalidate = true ∧
    ∀ k < 16, (circuit.run dropped k).tcbMgr.invalidate = true → Silenced dropped k := by
  have hrun : ((circuit.run dropped 15).tcbMgr.tcb 0).tcpCurr = .established ∧
      (circuit.run dropped 15).tcbMgr.invalidate = true ∧
      (circuit.run dropped 15).rto.priorityQueue.contents = [] ∧
      (circuit.run dropped 15).rto.timerWheel
        ((circuit.run dropped 9).rto.slot (circuit.run dropped 9).rtoInput) = none ∧
      ∀ w < 15, (circuit.run dropped w).tcbMgr.invalidate = false ∧
        ((circuit.run dropped w).tcbMgr.tcpCtrlValid = true →
          Rto.timed (circuit.run dropped w).tcbMgr.tcbOutTx = true → w = 9) := by decide +kernel
  obtain ⟨hcurr, hinv, hq, h9, hbefore⟩ := hrun
  refine ⟨hcurr, hinv, no_ghosts fun k hk hi ↦ ?_⟩
  obtain rfl : k = 15 := by
    by_contra hne
    exact Bool.noConfusion (hi.symm.trans (hbefore k (by omega)).1)
  refine ⟨fun e he ↦ ?_, fun x e he ↦ ?_, by decide +kernel, by decide +kernel⟩
  · have hmem := Fifo.remaining_sublist.subset he
    rw [hq] at hmem
    exact absurd hmem List.not_mem_nil
  · obtain ⟨w, hn, hv, ht, rfl⟩ := waiting_armed he
    obtain rfl := (hbefore w hn).2 hv ht
    exact absurd (h9.symm.trans he) (Option.some_ne_none e).symm

/-- Nothing moves but the timer. -/
structure Dormant (s : State) : Prop where
  headers : s.headerQueue.contents = []
  lookup : s.cache.reqValid = false ∧ s.cache.tcbAddrValid = false
  queues : s.tcbMgr.wb.tx.contents = [] ∧ s.tcbMgr.wb.rto.contents = []
  updates : s.tcbMgr.wbValidD = false ∧ s.tcbMgr.tcpCtrlValid = false ∧ s.tcbMgr.cancelRto = false
  priority : s.rto.priorityQueue.contents = []

instance (s : State) : Decidable (Dormant s) :=
  decidable_of_iff (s.headerQueue.contents = [] ∧
    (s.cache.reqValid = false ∧ s.cache.tcbAddrValid = false) ∧
    (s.tcbMgr.wb.tx.contents = [] ∧ s.tcbMgr.wb.rto.contents = []) ∧
    (s.tcbMgr.wbValidD = false ∧ s.tcbMgr.tcpCtrlValid = false ∧ s.tcbMgr.cancelRto = false) ∧
    s.rto.priorityQueue.contents = [])
    ⟨fun ⟨h₁, h₂, h₃, h₄, h₅⟩ ↦ ⟨h₁, h₂, h₃, h₄, h₅⟩, fun ⟨h₁, h₂, h₃, h₄, h₅⟩ ↦ ⟨h₁, h₂, h₃, h₄, h₅⟩⟩

section

variable {s : State} {i : Input}

theorem dormant_next (h : Dormant s) (hi : i.h2cTvalid = false)
    (hd : ¬(s.rto.tick = true ∧ s.rto.timerWheelVal ≠ none)) : Dormant (s.next i) := by
  obtain ⟨hh, ⟨hr, hv⟩, ⟨ht, ho⟩, ⟨hw, hc, -⟩, hp⟩ := h
  have hpop : s.pop = false := by
    rw [State.pop, Fifo.empty_iff.mpr hh, Bool.not_true, Bool.and_false]
  have hout : s.tcbRtoValid = false := by
    rw [State.tcbRtoValid, Rto.State.tcbAddrOutValid, Rto.State.hpValid, Fifo.empty_iff.mpr hp,
      Bool.not_true, Bool.false_or, Bool.and_eq_false_iff, ← Bool.not_eq_true, Bool.and_eq_true,
      Option.isSome_iff_ne_none]
    exact .inl fun hx ↦ hd hx.symm
  have hwb : s.tcbMgr.wbOutput (s.tcbMgrInput i) = {} := by
    have hrx : (s.tcbMgr.wbInput (s.tcbMgrInput i)).tcbValidRx = false := hv
    rw [TcbMgr.State.wbOutput, Writeback.output, hrx, Fifo.empty_iff.mpr ht, Fifo.empty_iff.mpr ho]
    rfl
  have htx : (s.tcbMgr.wbInput (s.tcbMgrInput i)).tcbValidTx = false := hout
  refine ⟨?_, ⟨hpop, ?_⟩, ⟨?_, ?_⟩, ⟨?_, hw, ?_⟩, queue_stays hp hc⟩
  · rw [State.next, headerIn, hi, if_neg Bool.false_ne_true, Fifo.next_none_of_nil hh]
  · exact tcbAddrValid_next.trans hr
  · rw [State.next, TcbMgr.State.next, Writeback.next, Writeback.fifoWrEnTx, htx, Bool.false_and,
      if_neg Bool.false_ne_true, Fifo.next_none_of_nil ht]
  · rw [State.next, TcbMgr.State.next, Writeback.next, Writeback.fifoWrEnRto, htx, Bool.false_and,
      if_neg Bool.false_ne_true, Fifo.next_none_of_nil ho]
  · rw [State.next, TcbMgr.State.next, hwb]
  · rw [State.next, TcbMgr.State.next, TcbMgr.State.update, hw, if_neg Bool.false_ne_true]

theorem timerWheel_dormant (h : Dormant s) {x : Rto.Wheel} :
    (s.next i).rto.timerWheel x =
      if s.rto.tick = true ∧ x = s.rto.rdPtr then none else s.rto.timerWheel x := by
  have hidle := congrFun (Rto.timerWheel_idle (s := s.rto) (i := s.rtoInput) h.updates.2.2 h.updates.2.1) x
  refine hidle.trans ?_
  by_cases hx : x = s.rto.rdPtr
  · subst hx
    cases s.rto.tick <;> simp
  · cases s.rto.tick <;> simp [hx]

end

def hung (n : ℕ) : Input :=
  if n = 0 then { h2cTdata := Datapath.segment 1000 0 2, h2cTvalid := true }
  else if n = 7 then { h2cTdata := Datapath.segment 1001 0 4, h2cTvalid := true }
  else {}

theorem hung_run : (Dormant (circuit.run hung 15) ∧ (circuit.run hung 15).rto.timerWheel 0 = none ∧
      (circuit.run hung 15).rto.timerWheel 1 = none ∧ (circuit.run hung 15).rto.timerWheel 2 ≠ none) ∧
    (circuit.run hung 12).tcbMgr.invalidate = true ∧
    (circuit.run hung 9).tcbMgr.tcbOutTx.csrCurr.any = true ∧
    (circuit.run hung 9).tcbMgr.tcpCtrlAddr = (circuit.run hung 12).tcbMgr.tcpCtrlAddr ∧
    ∀ w < 15, (circuit.run hung w).tcbMgr.tcpCtrlValid = true →
      Rto.timed (circuit.run hung w).tcbMgr.tcbOutTx = true → w = 9 := by decide +kernel

theorem hung_waits {n : ℕ} (hn : 15 ≤ n) (hm : n ≤ 192) : Dormant (circuit.run hung n) ∧
    (circuit.run hung n).rto.timerWheel 0 = none ∧ (circuit.run hung n).rto.timerWheel 1 = none ∧
    (circuit.run hung n).rto.timerWheel 2 ≠ none := by
  refine Circuit.persists (I := fun s : State ↦ Dormant s ∧ s.rto.timerWheel 0 = none ∧
    s.rto.timerWheel 1 = none ∧ s.rto.timerWheel 2 ≠ none) hn hung_run.1 ?_
  rintro (_ | k) hk hkn ⟨hd, h0, h1, h2⟩
  · omega
  · have hi : (hung (k + 1)).h2cTvalid = false := by
      rw [hung, if_neg (by omega), if_neg (by omega)]
    have hslot : (circuit.run hung (k + 1)).rto.tick = true →
        (circuit.run hung (k + 1)).rto.rdPtr = 0 ∨ (circuit.run hung (k + 1)).rto.rdPtr = 1 := by
      rw [rto_run, Rto.tick_run, Rto.rdPtr_run]
      intro ht
      rcases (by omega : k / 64 = 0 ∨ k / 64 = 1) with h | h
      · exact .inl (by rw [h]; rfl)
      · exact .inr (by rw [h]; rfl)
    rw [run_succ _ (k + 1)]
    refine ⟨dormant_next hd hi ?_, ?_, ?_, ?_⟩
    · rintro ⟨ht, hne⟩
      rcases hslot ht with hr | hr
      · exact hne (by rw [Rto.State.timerWheelVal, hr, h0])
      · exact hne (by rw [Rto.State.timerWheelVal, hr, h1])
    · rw [timerWheel_dormant hd, h0, ite_self]
    · rw [timerWheel_dormant hd, h1, ite_self]
    · rw [timerWheel_dormant hd, if_neg]
      · exact h2
      · rintro ⟨ht, hx⟩
        rcases hslot ht with hr | hr
        · exact absurd (hx.trans hr) (by decide)
        · exact absurd (hx.trans hr) (by decide)

/-- The SYN-ACK is retransmitted after the reset. -/
theorem hung_not_silenced : (circuit.run hung 12).tcbMgr.invalidate = true ∧ ¬Silenced hung 12 := by
  obtain ⟨-, hi, ha, haddr, hw⟩ := hung_run
  obtain ⟨hd, -, -, h2⟩ := hung_waits (by omega : 15 ≤ 191 + 1) le_rfl
  have ht : (circuit.run hung (191 + 1)).rto.tick = true := by
    rw [rto_run]
    exact (Rto.tick_run _ 191).mpr rfl
  have hr : (circuit.run hung (191 + 1)).rto.rdPtr = 2 := by
    rw [rto_run]
    exact Rto.rdPtr_run _ 191
  have hv : (circuit.run hung (191 + 1)).rto.hpValid = false := by
    rw [Rto.State.hpValid, Fifo.empty_iff.mpr hd.priority]
    rfl
  have hs : source hung (191 + 1) = some 9 := by
    have ho := out_eq_written hung (191 + 1)
    rw [Rto.out_wheel_only rfl hv, if_pos ht, Rto.State.timerWheelVal, hr] at ho
    have hne : source hung (191 + 1) ≠ none := by
      intro hn
      rw [hn, Option.map_none] at ho
      exact h2 ho
    obtain ⟨w, hs⟩ := Option.ne_none_iff_exists'.mp hne
    rw [hs, Option.map_some] at ho
    have htimed : Rto.timed (circuit.run hung w).tcbMgr.tcbOutTx = true :=
      (sorted_rto hung (191 + 1)).2 2 _ ho
    have hw15 : w < 15 := by
      by_contra hge
      obtain ⟨hn, hwv⟩ := source_past hs
      obtain ⟨hdw, -⟩ := hung_waits (by omega : 15 ≤ w) (by omega)
      exact Bool.noConfusion (hwv.symm.trans hdw.updates.2.1)
    rw [hs, hw w hw15 (source_past hs).2 htimed]
  refine ⟨hi, fun h ↦ ?_⟩
  have hg : Ghost hung 12 9 (191 + 1) := ⟨by omega, hs, haddr, ha, .inl (by omega)⟩
  exact absurd (h 9 (191 + 1) hg).1 (by omega)

end QdmaTrafficGen.TopLevel
