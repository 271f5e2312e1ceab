import QdmaTrafficGen.CacheAllocation
import QdmaTrafficGen.Ghosts

namespace QdmaTrafficGen.TopLevel

open Clocked TcpCtrl

/-- If a segment takes a TCB to CLOSED, `invalidate` is raised for its address together with the
write. -/
def ClosesWhole (s : State) (i : Input) : Prop :=
  ∀ hdr, s.processing = some hdr → (s.next i).tcbMgr.tcbOutTx.tcpCurr = .closed →
    (s.next i).tcbMgr.invalidate = true ∧ (s.next i).Writes s.tcbMgr.wbAddrD

/-- No cache slot in use and no `tcb_alloc` bit belongs to a closed connection. -/
structure Released (s : State) : Prop where
  slots : ∀ x a, s.cache.valid x = true → s.cache.slotOf a = some x →
    (s.tcbMgr.tcb a).tcpCurr ≠ .closed
  alloc : ∀ a, s.tcbMgr.tcbAlloc a = true → (s.tcbMgr.tcb a).tcpCurr ≠ .closed

/-- The states and the flags that lead to CLOSED without `invalidate`. -/
def leaks (curr : TcpState) (rx : TcpCsr) : Bool :=
  match curr with
  | .closed | .listen | .synRecv => false
  | .synSent => rx.rst && rx.syn
  | .established => rx.rst && (rx.fin || rx.ack && !rx.syn)
  | .fin1 | .fin2 | .closing | .closeWait => rx.rst && (rx.fin || rx.ack)
  | .lastAck => rx.ack || rx.rst && rx.fin
  | .timeWait => rx.fin || rx.ack

def State.Holds (s : State) (a : Addr) : Prop :=
  s.tcbMgr.tcbAlloc a = true ∨ s.cache.slotOf a ≠ none

/-- A cycle in which no segment leaks a connection, no transmission brings back CLOSED for an address
that is held, and no read miss takes another address than the one that it reports. -/
structure Frees (s : State) (i : Input) : Prop where
  rx : ∀ hdr, s.processing = some hdr → leaks s.curr hdr.tcpCsr = false
  tx : s.tcbMgr.wbValidD = true → s.tcbMgr.pathD = false → s.Holds s.tcbMgr.wbAddrD →
    s.tcbMgr.tcbIn.tcpNext = .closed →
      s.tcbMgr.tcbIn.nextSendTime ≠ 0 ∧ s.tcbMgr.tcbIn.backoffExp = 4
  miss : s.cache.readMiss (s.cacheInput i) = true → s.tcbMgr.invalidate = false →
    ∀ e ∈ s.cache.allocate s.headerOut.tuple, e.1 = s.cache.tcbAlloc

instance (s : State) (a : Addr) : Decidable (s.Holds a) := inferInstanceAs (Decidable (_ ∨ _))

instance (s : State) (i : Input) : Decidable (Frees s i) :=
  decidable_of_iff ((∀ hdr ∈ s.processing, leaks s.curr hdr.tcpCsr = false) ∧
    (s.tcbMgr.wbValidD = true → s.tcbMgr.pathD = false → s.Holds s.tcbMgr.wbAddrD →
      s.tcbMgr.tcbIn.tcpNext = .closed →
        s.tcbMgr.tcbIn.nextSendTime ≠ 0 ∧ s.tcbMgr.tcbIn.backoffExp = 4) ∧
    (s.cache.readMiss (s.cacheInput i) = true → s.tcbMgr.invalidate = false →
      ∀ e ∈ s.cache.allocate s.headerOut.tuple, e.1 = s.cache.tcbAlloc))
    ⟨fun ⟨h₁, h₂, h₃⟩ ↦ ⟨h₁, h₂, h₃⟩, fun ⟨h₁, h₂, h₃⟩ ↦ ⟨h₁, h₂, h₃⟩⟩

/-- The connection of `a` is being looked up or updated, is being invalidated, or is open. -/
def Covered (s : State) (a : Addr) : Prop :=
  s.cache.tcbAddrValid = true ∧ s.cache.tcbAddr = a ∨
    s.tcbMgr.wbValidD = true ∧ s.tcbMgr.wbAddrD = a ∨
    s.Writes a ∧ (s.tcbMgr.invalidate = true ∨ s.tcbMgr.tcbOutTx.tcpCurr ≠ .closed) ∨
    ¬s.Writes a ∧ (s.tcbMgr.tcb a).tcpCurr ≠ .closed

section

variable {t : Tcb} {new : Bool} {hdr : Header} {s : State} {i : Input} {a : Addr}

theorem leaks_iff : ∀ {curr : TcpState} {rx : TcpCsr}, leaks curr rx = true ↔
    (tcpFsm curr rx).tcpNext = .closed ∧ (tcpFsm curr rx).invalidate = false := by
  rintro curr ⟨syn, ack, rst, fin⟩
  cases curr <;> cases syn <;> cases ack <;> cases rst <;> cases fin <;> decide

/-- CLOSED is committed together with `invalidate` for exactly those segments that do not leak. -/
theorem closesWhole_iff :
    ClosesWhole s i ↔ ∀ hdr, s.processing = some hdr → leaks s.curr hdr.tcpCsr = false := by
  refine forall_congr' fun hdr ↦ forall_congr' fun hp ↦ ?_
  have hv := (processing_eq_some.mp hp).1
  have hw : (s.next i).Writes s.tcbMgr.wbAddrD := ⟨hv, if_pos hv⟩
  have hinv : (s.next i).tcbMgr.invalidate = s.tcbMgr.update.invalidate := rfl
  rw [tcbOutTx_next hv, hinv, update_of_processing hp, ← Bool.not_eq_true, leaks_iff, not_and, State.curr]
  refine ⟨fun h hc hi ↦ ?_, fun h hc ↦ ⟨?_, hw⟩⟩
  · exact Bool.noConfusion ((h hc).1.symm.trans hi)
  · exact Bool.not_eq_false _ ▸ h hc

theorem egress_closed (hc : (egress t).tcb.tcpCurr = .closed) (hi : (egress t).invalidate = false) :
    t.tcpNext = .closed ∧ ¬(t.nextSendTime ≠ 0 ∧ t.backoffExp = 4) := by
  simp only [egress] at hc hi
  split at hc
  case isTrue h0 => exact ⟨hc, fun h ↦ h.1 h0⟩
  case isFalse h0 =>
    rw [if_neg h0] at hi
    split at hc
    case isTrue h4 =>
      rw [if_pos h4] at hi
      exact Bool.noConfusion hi
    case isFalse h4 => exact ⟨hc, fun h ↦ h4 h.2⟩

theorem alloc_next (h : (s.next i).tcbMgr.tcbAlloc a = true) :
    s.cache.tcbAddrValid = true ∧ s.cache.tcbAddr = a ∨
      s.tcbMgr.tcbAlloc a = true ∧ ¬(s.tcbMgr.invalidate = true ∧ s.tcbMgr.tcpCtrlAddr = a) := by
  simp only [State.next, TcbMgr.State.next] at h
  split at h
  case isTrue hi =>
    by_cases ha : a = s.tcbMgr.tcpCtrlAddr
    · rw [ha, Function.update_self] at h
      exact absurd h Bool.false_ne_true
    · rw [Function.update_of_ne ha] at h
      exact .inr ⟨h, fun hc ↦ ha hc.2.symm⟩
  case isFalse hi =>
    split at h
    case isFalse => exact .inr ⟨h, fun hc ↦ hi hc.1⟩
    case isTrue hv =>
      by_cases ha : a = s.cache.tcbAddr
      · exact .inl ⟨hv, ha.symm⟩
      · refine .inr ⟨?_, fun hc ↦ hi hc.1⟩
        rwa [Function.update_of_ne (show a ≠ (s.tcbMgrInput i).tcbAddrRx from ha)] at h

theorem slotOf_next (h : (s.next i).cache.slotOf a ≠ none) :
    (s.cache.readMiss (s.cacheInput i) = true ∧ s.tcbMgr.invalidate = false ∧
        ∃ r, s.cache.allocate s.headerOut.tuple = some (a, r)) ∨
      s.cache.slotOf a ≠ none ∧ ¬(s.tcbMgr.invalidate = true ∧ s.tcbMgr.tcpCtrlAddr = a) := by
  have hmd : (s.next i).cache.toMetadata = s.cache.metadataNext (s.cacheInput i) := rfl
  rw [hmd, Cache.State.metadataNext] at h
  split at h
  case isTrue hi =>
    rw [Cache.Metadata.slotOf_drop] at h
    by_cases ha : a = s.tcbMgr.tcpCtrlAddr
    · rw [ha] at h
      exact absurd (Function.update_self _ _ _) h
    · rw [Function.update_of_ne (show a ≠ (s.cacheInput i).invalidateAddr from ha)] at h
      exact .inr ⟨h, fun hc ↦ ha hc.2.symm⟩
  case isFalse hi =>
    split at h
    case isFalse => exact .inr ⟨h, fun hc ↦ hi hc.1⟩
    case isTrue hm =>
      rw [Cache.Metadata.miss] at h
      split at h
      case h_2 => exact .inr ⟨h, fun hc ↦ hi hc.1⟩
      case h_1 b r hb =>
        by_cases ha : a = b
        · subst ha
          exact .inl ⟨hm, Bool.eq_false_iff.mpr hi, r, hb⟩
        · refine .inr ⟨?_, fun hc ↦ hi hc.1⟩
          simpa only [Cache.Metadata.slotOf, Cache.Metadata.install, Function.update_of_ne ha] using h

theorem holds_next (hp : Paced s) (hf : Frees s i) (h : (s.next i).Holds a) :
    (s.next i).cache.tcbAddrValid = true ∧ (s.next i).cache.tcbAddr = a ∨
      s.cache.tcbAddrValid = true ∧ s.cache.tcbAddr = a ∨
      s.Holds a ∧ ¬(s.tcbMgr.invalidate = true ∧ s.tcbMgr.tcpCtrlAddr = a) := by
  rcases h with h | h
  · exact .inr ((alloc_next h).imp_right fun h ↦ ⟨.inl h.1, h.2⟩)
  · rcases slotOf_next h with ⟨hm, hi, r, hr⟩ | h
    · refine .inl ⟨?_, (Cache.State.tcbAddr_miss hm).trans (hf.miss hm hi (a, r) hr).symm⟩
      have hm' := hm
      rw [Cache.State.readMiss, Bool.and_eq_true, Bool.and_eq_true, hp.readD] at hm'
      exact tcbAddrValid_next.trans hm'.1.1
    · exact .inr (.inr ⟨.inr h.1, h.2⟩)

theorem update_open (hf : Frees s i) (hv : s.tcbMgr.wbValidD = true) (h : s.Holds s.tcbMgr.wbAddrD) :
    (s.next i).tcbMgr.invalidate = true ∨ (s.next i).tcbMgr.tcbOutTx.tcpCurr ≠ .closed := by
  by_contra hno
  obtain ⟨hi, hc⟩ : _ ∧ _ := by simpa only [not_or, not_not] using hno
  cases hp : s.tcbMgr.pathD with
  | true => exact hi (closesWhole_iff.mpr hf.rx _ (processing_eq_some.mpr ⟨hv, hp, rfl⟩) hc).1
  | false =>
    have hinv : (s.next i).tcbMgr.invalidate = s.tcbMgr.update.invalidate := rfl
    rw [tcbOutTx_next hv, update_of_tx hv hp] at hc
    rw [hinv, update_of_tx hv hp, Bool.not_eq_true] at hi
    obtain ⟨hnext, hgive⟩ := egress_closed hc hi
    exact hgive (hf.tx hv hp h hnext)

theorem stored_open (hb : ¬(s.tcbMgr.wbValidD = true ∧ s.tcbMgr.wbAddrD = a))
    (hkeep : ¬(s.tcbMgr.invalidate = true ∧ s.tcbMgr.tcpCtrlAddr = a))
    (h : s.Writes a ∧ (s.tcbMgr.invalidate = true ∨ s.tcbMgr.tcbOutTx.tcpCurr ≠ .closed) ∨
      ¬s.Writes a ∧ (s.tcbMgr.tcb a).tcpCurr ≠ .closed) :
    ¬(s.next i).Writes a ∧ ((s.next i).tcbMgr.tcb a).tcpCurr ≠ .closed := by
  constructor
  · rintro ⟨hv, ha⟩
    exact hb ⟨hv, (if_pos (show s.tcbMgr.wbValidD = true from hv)).symm.trans ha⟩
  · simp only [State.next, TcbMgr.State.next]
    rcases h with ⟨⟨hw, rfl⟩, hopen⟩ | ⟨hno, hopen⟩
    · have hi : ¬s.tcbMgr.invalidate = true := fun hi ↦ hkeep ⟨hi, rfl⟩
      rw [if_pos hw, Function.update_self, TcbMgr.State.dina, if_neg hi]
      exact hopen.resolve_left hi
    · split
      case isFalse => exact hopen
      case isTrue hw =>
        rw [Function.update_of_ne fun ha ↦ hno ⟨hw, ha.symm⟩]
        exact hopen

theorem covered_next (hp : Paced s) (hf : Frees s i) (hc : ∀ a, s.Holds a → Covered s a)
    (h : (s.next i).Holds a) : Covered (s.next i) a := by
  have hgrant : s.cache.tcbAddrValid = true ∧ s.cache.tcbAddr = a → Covered (s.next i) a := by
    rintro ⟨hv, ha⟩
    obtain ⟨hv', -, ha'⟩ := granted_of_tcbAddrValid (i := i) hv
    exact .inr (.inl ⟨hv', ha'.trans ha⟩)
  rcases holds_next hp hf h with hask | hask | ⟨hold, hkeep⟩
  · exact .inl hask
  · exact hgrant hask
  · by_cases hb : s.tcbMgr.wbValidD = true ∧ s.tcbMgr.wbAddrD = a
    · obtain ⟨hv, rfl⟩ := hb
      exact .inr (.inr (.inl ⟨⟨hv, if_pos hv⟩, update_open hf hv hold⟩))
    · rcases hc a hold with hask | hb' | hst
      · exact hgrant hask
      · exact absurd hb' hb
      · exact .inr (.inr (.inr (stored_open hb hkeep hst)))

theorem released_of_covered (hc : ∀ a, s.Holds a → Covered s a) (hd : Dormant s) : Released s := by
  have hopen : ∀ a, s.Holds a → (s.tcbMgr.tcb a).tcpCurr ≠ .closed := by
    intro a ha
    rcases hc a ha with ⟨hv, -⟩ | ⟨hv, -⟩ | ⟨hw, -⟩ | ⟨-, h⟩
    · exact Bool.noConfusion (hv.symm.trans hd.lookup.2)
    · exact Bool.noConfusion (hv.symm.trans hd.updates.1)
    · exact Bool.noConfusion (hw.1.symm.trans hd.updates.2.1)
    · exact h
  refine ⟨fun x a _ hs ↦ hopen a (.inr ?_), fun a ha ↦ hopen a (.inl ha)⟩
  rw [hs]
  exact Option.some_ne_none x

end

section

variable {u : ℕ → Input} {n : ℕ}

theorem covered_run (hf : ∀ k < n, Frees (circuit.run u k) (u k)) (a : Addr)
    (h : (circuit.run u n).Holds a) : Covered (circuit.run u n) a := by
  induction n generalizing a with
  | zero =>
    rcases h with h | h
    · exact absurd h Bool.false_ne_true
    · exact absurd rfl h
  | succ n ih => exact covered_next (paced_run u n) (hf n (by omega)) (ih fun k hk ↦ hf k (by omega)) h

/-- As long as every cycle frees what it closes, CLOSED is committed together with `invalidate`, and
whenever the pipeline is empty no closed connection has a cache slot or a `tcb_alloc` bit. -/
theorem released_run (hf : ∀ k < n, Frees (circuit.run u k) (u k)) :
    (∀ k < n, ClosesWhole (circuit.run u k) (u k)) ∧
      ∀ k ≤ n, Dormant (circuit.run u k) → Released (circuit.run u k) := by
  refine ⟨fun k hk ↦ closesWhole_iff.mpr (hf k hk).rx, fun k hk ↦ ?_⟩
  exact released_of_covered (covered_run fun j hj ↦ hf j (by omega))

end

theorem hung_released : (circuit.run hung 12).tcbMgr.invalidate = true ∧
    (∀ k < 15, ClosesWhole (circuit.run hung k) (hung k)) ∧
    ∀ k ≤ 15, Dormant (circuit.run hung k) → Released (circuit.run hung k) := by
  have hrun : (circuit.run hung 12).tcbMgr.invalidate = true ∧
      ∀ k < 15, Frees (circuit.run hung k) (hung k) := by decide +kernel
  exact ⟨hrun.1, released_run hrun.2⟩

def torn (n : ℕ) : Input :=
  if n = 0 then { h2cTdata := Datapath.segment 1000 0 2, h2cTvalid := true }
  else if n = 7 then { h2cTdata := Datapath.segment 1001 2 16, h2cTvalid := true }
  else if n = 10 then { h2cTdata := Datapath.segment 1001 2 20, h2cTvalid := true }
  else {}

/-- The last segment closes the connection, which keeps its slot and its `tcb_alloc` bit. -/
theorem torn_not_released : ¬ClosesWhole (circuit.run torn 14) (torn 14) ∧
    Dormant (circuit.run torn 20) ∧ ¬Released (circuit.run torn 20) := by
  obtain ⟨⟨hp, hl⟩, hd, hs, hv, hc⟩ :
      ((circuit.run torn 14).processing = some (circuit.run torn 14).tcbMgr.headerOutD ∧
        leaks (circuit.run torn 14).curr (circuit.run torn 14).tcbMgr.headerOutD.tcpCsr = true) ∧
      Dormant (circuit.run torn 20) ∧
      (circuit.run torn 20).cache.slotOf 0 = some (3, 0) ∧
      (circuit.run torn 20).cache.valid (3, 0) = true ∧
      ((circuit.run torn 20).tcbMgr.tcb 0).tcpCurr = .closed := by decide +kernel
  refine ⟨fun h ↦ ?_, hd, fun h ↦ h.slots _ 0 hv hs hc⟩
  exact Bool.noConfusion (hl.symm.trans (closesWhole_iff.mp h _ hp))

end QdmaTrafficGen.TopLevel
