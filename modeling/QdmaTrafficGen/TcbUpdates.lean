import QdmaTrafficGen.TcbMgr
import QdmaTrafficGen.Clocked.PendingWrites

namespace QdmaTrafficGen.TcbMgr

open Clocked TcpCtrl

/-- An update that `writeback` grants: a received segment `hdr`, which opens a connection if `new`
holds its SYN, or a transmission. -/
structure Grant where
  path : Bool
  addr : Addr
  new : Option Header
  hdr : Header

def Grant.apply (g : Grant) (tcb : Tcb) : Tcb :=
  if g.path then
    (ingress g.new.isSome g.hdr ((g.new.map TcpCtrl.newPacketTcb).getD tcb)).stored
  else (egress tcb).stored

def Grant.apply_at (g : Grant) (mem : Addr → Tcb) : Addr → Tcb :=
  Function.update mem g.addr (g.apply (mem g.addr))

def sequential (gs : List Grant) : Addr → Tcb := gs.foldl (fun mem g ↦ g.apply_at mem) (fun _ ↦ 0)

namespace State

variable (s : State) (i : Input)

def grant : Option Grant :=
  if (s.wbOutput i).valid then
    some ⟨(s.wbOutput i).path, (s.wbOutput i).addr,
      if s.newPacketD then some s.headerOutD else none, i.headerOut⟩
  else none

def pending : List (Addr × Tcb) :=
  (if s.tcpCtrlValid then [(s.tcpCtrlAddr, s.dina)] else []) ++
    (if s.wbValidD then [(s.wbAddrD, s.update.stored)] else [])

def InFlight (a : Addr) : Prop := a ∈ s.pending.map Prod.fst

instance (a : Addr) : Decidable (s.InFlight a) := inferInstanceAs (Decidable (_ ∈ _))

/-- No update that reads its TCB from the memory is granted while another one of its address is
on its way. -/
def Clear : Prop := ∀ g ∈ s.grant i, g.new = none → ¬s.InFlight g.addr

instance : Decidable (s.Clear i) := inferInstanceAs (Decidable (∀ g ∈ s.grant i, _))

end State

def grants (u : ℕ → Input) (n : ℕ) : List Grant :=
  collect (fun k ↦ (circuit.run u k).grant (u k)) n

/-- A header that opens a connection comes with its address one cycle later. -/
def Paired (u : ℕ → Input) : Prop :=
  ∀ k, newPacket (u k).readMiss (u k).headerOut = true → (u (k + 1)).tcbValidRx = true

def Spaced (u : ℕ → Input) : Prop :=
  ∀ j k, j < k → (u j).tcbValidRx = true → (u k).tcbValidRx = true → j + 3 ≤ k

theorem sequential_append (gs : List Grant) (g : Grant) :
    sequential (gs ++ [g]) = g.apply_at (sequential gs) := List.foldl_concat _ _ _ _

section

variable {s : State} {i : Input}

def Blank (tcb : Tcb) : Prop := tcb.tcpCurr = .closed ∧ tcb.tcpNext = .closed ∧ tcb.lenNum = 0

theorem assignNew_blank {tcb : Tcb} (h : Blank tcb) (hdr : Header) :
    assignNew tcb hdr = TcpCtrl.newPacketTcb hdr := by
  obtain ⟨hc, hn, hl⟩ := h
  simp only [TcpCtrl.newPacketTcb, assignNew, hc, hn, hl]
  rfl

theorem blank_run (u : ℕ → Input) (n : ℕ) : Blank (circuit.run u n).newPacketTcb :=
  Circuit.invariant (I := fun s : State ↦ Blank s.newPacketTcb) ⟨rfl, rfl, rfl⟩
    (fun _ _ ↦ newPacketTcb_next fun _ _ ↦ id) n

theorem grant_eq_some {g : Grant} (hg : s.grant i = some g) : (s.wbOutput i).valid = true ∧
    g = ⟨(s.wbOutput i).path, (s.wbOutput i).addr,
      if s.newPacketD then some s.headerOutD else none, i.headerOut⟩ := by
  simp only [State.grant] at hg
  split at hg
  · exact ⟨‹_›, (Option.some.inj hg).symm⟩
  · simp at hg

theorem grant_eq_none (hg : s.grant i = none) : (s.wbOutput i).valid = false := by
  cases hv : (s.wbOutput i).valid
  · rfl
  · simp [State.grant, hv] at hg

theorem path_of_new {g : Grant} (hg : s.grant i = some g)
    (hp : s.newPacketD = true → i.tcbValidRx = true) (hn : g.new ≠ none) : g.path = true := by
  obtain ⟨-, rfl⟩ := grant_eq_some hg
  have hd : s.newPacketD = true := by
    by_contra hd
    simp [hd] at hn
  simp only [State.wbOutput, Writeback.output_rx (i := s.wbInput i) (hp hd)]

theorem stored_of_grant (hb : Blank s.newPacketTcb) {g : Grant} (hg : s.grant i = some g)
    (hp : s.newPacketD = true → i.tcbValidRx = true) :
    (s.next i).update.stored = g.apply (s.next i).tcbBOut := by
  have hpath := path_of_new hg hp
  obtain ⟨hv, rfl⟩ := grant_eq_some hg
  cases hn : s.newPacketD with
  | true =>
    have hpath' : (s.wbOutput i).path = true := hpath (by simp [hn])
    simp [State.update, State.tcbIn, Grant.apply, State.next, hv, hn, hpath', assignNew_blank hb]
  | false =>
    cases hpath' : (s.wbOutput i).path
    · simp [State.update, State.tcbIn, Grant.apply, State.next, hv, hn, hpath']
    · simp [State.update, State.tcbIn, Grant.apply, State.next, hv, hn, hpath']

theorem pending_next : (s.next i).pending =
    (if s.wbValidD then [(s.wbAddrD, s.update.stored)] else []) ++
      (if (s.wbOutput i).valid then [((s.wbOutput i).addr, (s.next i).update.stored)] else []) := by
  have hv : (s.next i).tcpCtrlValid = s.wbValidD := rfl
  have hw : (s.next i).wbValidD = (s.wbOutput i).valid := rfl
  have ha : (s.next i).wbAddrD = (s.wbOutput i).addr := rfl
  simp only [State.pending, hv, hw, ha]
  congr 1
  cases hd : s.wbValidD
  · rfl
  · simp [State.next, State.dina, Update.stored, hd]

theorem overlay_next_tcb : overlay (s.next i).tcb
    (if s.wbValidD then [(s.wbAddrD, s.update.stored)] else []) = overlay s.tcb s.pending := by
  simp only [State.next, State.pending]
  cases s.tcpCtrlValid
  · rfl
  · exact overlay_retire _ _ _ _

theorem tcbBOut_of_clear {g : Grant} (hg : s.grant i = some g) (hf : ¬s.InFlight g.addr) :
    (s.next i).tcbBOut = overlay s.tcb s.pending g.addr := by
  obtain ⟨-, rfl⟩ := grant_eq_some hg
  have hc : ¬(s.tcpCtrlValid = true ∧ s.tcpCtrlAddr = (s.wbOutput i).addr) := by
    rintro ⟨hv, ha⟩
    apply hf
    simp [State.InFlight, State.pending, hv, ha]
  rw [overlay_of_notMem hf]
  simp only [State.next]
  rw [if_neg hc]

theorem apply_next {g : Grant} (hg : s.grant i = some g)
    (hp : s.newPacketD = true → i.tcbValidRx = true) (hc : s.Clear i) :
    g.apply (s.next i).tcbBOut = g.apply (overlay s.tcb s.pending g.addr) := by
  cases hn : g.new with
  | none => rw [tcbBOut_of_clear hg (hc g hg hn)]
  | some h => simp [Grant.apply, path_of_new hg hp (by simp [hn]), hn]

theorem overlay_next (hb : Blank s.newPacketTcb) (hp : s.newPacketD = true → i.tcbValidRx = true)
    (hc : s.Clear i) : overlay (s.next i).tcb (s.next i).pending =
      ((s.grant i).map fun g ↦ g.apply_at (overlay s.tcb s.pending)).getD
        (overlay s.tcb s.pending) := by
  rw [pending_next, overlay_append, overlay_next_tcb]
  cases hg : s.grant i with
  | none => simp [grant_eq_none hg]
  | some g =>
    have hst := (stored_of_grant hb hg hp).trans (apply_next hg hp hc)
    obtain ⟨hv, rfl⟩ := grant_eq_some hg
    rw [if_pos hv, hst]
    rfl

end

section

variable {u : ℕ → Input} {n : ℕ}

theorem rx_of_newPacketD (hp : Paired u) (n : ℕ)
    (h : (circuit.run u n).newPacketD = true) : (u n).tcbValidRx = true := by
  cases n with
  | zero => exact Bool.noConfusion h
  | succ n => exact hp n h

theorem overlay_run (hp : Paired u) (hc : ∀ k < n, (circuit.run u k).Clear (u k)) :
    overlay (circuit.run u n).tcb (circuit.run u n).pending = sequential (grants u n) := by
  induction n with
  | zero => rfl
  | succ n ih =>
    have h := overlay_next (blank_run u n) (rx_of_newPacketD hp n) (hc n (by omega))
    rw [ih fun k hk ↦ hc k (by omega)] at h
    rw [Circuit.run_succ, grants, collect_succ, ← grants]
    refine h.trans ?_
    cases (circuit.run u n).grant (u n) with
    | none => simp
    | some g => exact (sequential_append _ g).symm

/-- As long as no update is granted while another one of its address is on its way, no update is
lost: every update reads what all earlier ones leave behind, and an idle pipeline has stored what
they leave behind in the order of their grants. -/
theorem no_update_lost (hp : Paired u) (hc : ∀ k < n, (circuit.run u k).Clear (u k)) :
    ((circuit.run u n).pending = [] → (circuit.run u n).tcb = sequential (grants u n)) ∧
      ∀ k < n, ∀ g, (circuit.run u k).grant (u k) = some g → g.new = none →
        (circuit.run u (k + 1)).tcbIn = sequential (grants u k) g.addr := by
  constructor
  · intro hi
    rw [← overlay_run hp hc, hi, overlay_nil]
  · intro k hk g hg hn
    have hd : (circuit.run u k).newPacketD = false := by
      obtain ⟨-, rfl⟩ := grant_eq_some hg
      simpa using hn
    rw [← overlay_run hp fun j hj ↦ hc j (by omega), ← tcbBOut_of_clear hg (hc k hk g hg hn),
      run_succ]
    simp [State.tcbIn, State.next, hd]

end

/-- A SYN, its answer and the ACK, each granted after the last one has been written. -/
def opened : ℕ → Input
  | 1 => { readMiss := true, headerOut := { tcpHdr := { seqNum := 1000 }, tcpCsr := .SYN } }
  | 2 => { tcbValidRx := true, headerOut := { tcpHdr := { seqNum := 1000 }, tcpCsr := .SYN } }
  | 6 => { tcbValidTx := true }
  | 12 => { tcbValidRx := true, headerOut := { tcpHdr := { seqNum := 1001 }, tcpCsr := .ACK } }
  | _ => {}

theorem opened_paired : Paired opened := by
  intro k hk
  match k, hk with
  | 1, _ => rfl
  | 0, h | 2, h | 3, h | 4, h | 5, h | 6, h | 7, h | 8, h | 9, h | 10, h | 11, h | 12, h | k + 13, h =>
    exact absurd h (by simp [opened, newPacket])

theorem raced_opened : (grants opened 16).length = 3 ∧
    (circuit.run opened 16).tcb = sequential (grants opened 16) ∧
    (circuit.run opened 13).tcbIn = sequential (grants opened 12) 0 := by
  obtain ⟨hidle, hread⟩ := no_update_lost opened_paired (n := 16) (by decide +kernel)
  have hack : ((circuit.run opened 12).grant (opened 12)).map (fun g ↦ (g.addr, g.new.isNone)) =
      some (0, true) := by decide +kernel
  obtain ⟨g, hg, heq⟩ := Option.map_eq_some_iff.1 hack
  obtain ⟨haddr, hnew⟩ := Prod.mk.inj heq
  exact ⟨by decide +kernel, hidle (by decide +kernel),
    haddr ▸ hread 12 (by decide) g hg (Option.isNone_iff_eq_none.1 hnew)⟩

def raced : ℕ → Input
  | 1 => { readMiss := true, headerOut := { tcpHdr := { seqNum := 1000 }, tcpCsr := .SYN } }
  | 2 => { tcbValidRx := true, headerOut := { tcpHdr := { seqNum := 1000 }, tcpCsr := .SYN } }
  | 5 => { tcbValidRx := true, headerOut := { tcpHdr := { seqNum := 1001 }, tcpCsr := .ACK },
           tcbValidTx := true }
  | _ => {}

theorem raced_paired : Paired raced
  | 0, h | 2, h | 3, h | 4, h | 5, h | k + 6, h => absurd h (by simp [raced, newPacket])
  | 1, _ => rfl

theorem raced_spaced : Spaced raced := by
  have h : ∀ k, (raced k).tcbValidRx = true → k = 2 ∨ k = 5 := by
    intro k hk
    match k with
    | 0 | 1 | 3 | 4 | k + 6 => simp [raced] at hk
    | 2 => exact .inl rfl
    | 5 => exact .inr rfl
  intro j k hjk hj hk
  rcases h j hj with hj | hj <;> rcases h k hk with hk | hk <;> omega


/-- The transmission is granted one cycle after the ACK and undoes its update. -/
theorem raced_loses_update : ¬∀ u, Paired u → Spaced u → ∀ n, (circuit.run u n).pending = [] →
    (circuit.run u n).tcb = sequential (grants u n) := by
  intro h
  have ht := congrFun (h raced raced_paired raced_spaced 9 (by decide +kernel)) 0
  exact absurd (congrArg Tcb.tcpCurr ht) (by decide +kernel)

end QdmaTrafficGen.TcbMgr
