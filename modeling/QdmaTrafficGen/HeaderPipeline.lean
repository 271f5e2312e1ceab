import QdmaTrafficGen.TopLevel

namespace QdmaTrafficGen.TopLevel

open Clocked

/-- The header popped in cycle `t` is the one that every later stage sees: its tuple addresses the
BRAMs and is compared in the next cycle, the miss is decided and the TCB of a new connection is
filled with it, and `tcp_ctrl` gets it together with the address that the cache returned. -/
structure AsItself (u : ℕ → Input) (t : ℕ) : Prop where
  read : ((circuit.run u t).cacheInput (u t)).inputTuple = (circuit.run u t).headerOut.tuple
  compare : ((circuit.run u (t + 1)).cacheInput (u (t + 1))).inputTuple =
    (circuit.run u t).headerOut.tuple
  miss : ((circuit.run u (t + 1)).tcbMgrInput (u (t + 1))).headerOut = (circuit.run u t).headerOut
  opened : (circuit.run u (t + 2)).tcbMgr.headerOutD = (circuit.run u t).headerOut
  processed : (circuit.run u (t + 3)).tcbMgr.headerOutD = (circuit.run u t).headerOut
  ingress : (circuit.run u (t + 3)).tcbMgr.wbValidD = true ∧
    (circuit.run u (t + 3)).tcbMgr.pathD = true
  addr : (circuit.run u (t + 3)).tcbMgr.wbAddrD = (circuit.run u (t + 2)).cache.tcbAddr

def State.processing (s : State) : Option Header :=
  if s.tcbMgr.wbValidD && s.tcbMgr.pathD then some s.tcbMgr.headerOutD else none

def processed (u : ℕ → Input) (n : ℕ) : List Header :=
  collect (fun k ↦ (circuit.run u k).processing) n

def arrived (u : ℕ → Input) (n : ℕ) : List Header := collect (fun k ↦ headerIn (u k)) n

/-- The header queue still shows the header that was popped last. -/
def Settled (s : State) : Prop := s.busy = true → s.headerQueue.dout = s.headerQueue.last

structure Paced (s : State) : Prop where
  readD : s.cache.readD = s.cache.reqValid
  busy : s.busy = (s.cache.reqValid || s.cache.tcbAddrValid)
  apart : (s.cache.reqValid && s.cache.tcbAddrValid) = false

section

variable {s : State} {i : Input}

theorem not_busy_of_pop (hp : s.pop = true) : s.busy = false := by
  simp only [State.pop, Bool.and_eq_true, Bool.not_eq_true'] at hp
  exact hp.1

theorem tcbAddrValid_next : (s.next i).cache.tcbAddrValid = s.cache.reqValid := by
  simp only [State.next, Cache.State.next]
  cases s.cache.reqValid <;> simp

theorem reqValid_next : (s.next i).cache.reqValid = s.pop := rfl

theorem busy_next : (s.next i).busy =
    if s.pop then true else if s.cache.tcbAddrValid then false else s.busy := rfl

theorem paced_next (h : Paced s) : Paced (s.next i) := by
  have hb := h.busy
  have ha := h.apart
  refine ⟨rfl, ?_, ?_⟩
  · rw [busy_next, reqValid_next, tcbAddrValid_next]
    cases hp : s.pop
    · cases hv : s.cache.tcbAddrValid <;> cases hq : s.cache.reqValid <;> simp_all
    · rfl
  · rw [reqValid_next, tcbAddrValid_next]
    cases hp : s.pop
    · rfl
    · rw [not_busy_of_pop hp] at hb
      cases hq : s.cache.reqValid <;> simp_all

theorem popped_eq : s.headerQueue.popped s.pop = if s.pop then some s.headerOut else none := by
  cases hp : s.pop
  · rfl
  · have hne : s.headerQueue.contents ≠ [] := by
      intro hn
      simp [State.pop, Fifo.empty_iff.mpr hn] at hp
    rw [Fifo.popped_of_not_empty hne]
    rfl

theorem last_next : (s.next i).headerQueue.last =
    if s.pop then s.headerOut else s.headerQueue.last := by
  simp only [State.next, Fifo.next, popped_eq]
  cases s.pop <;> rfl

theorem headerOutD_next : (s.next i).tcbMgr.headerOutD = s.headerOut := rfl

theorem granted_of_tcbAddrValid (h : s.cache.tcbAddrValid = true) :
    (s.next i).tcbMgr.wbValidD = true ∧ (s.next i).tcbMgr.pathD = true ∧
      (s.next i).tcbMgr.wbAddrD = s.cache.tcbAddr := by
  have ho := Writeback.output_rx (s := s.tcbMgr.wb) (i := s.tcbMgr.wbInput (s.tcbMgrInput i)) h
  simp only [State.next, TcbMgr.State.next, TcbMgr.State.wbOutput, ho, true_and]
  rfl

theorem processing_next : (s.next i).processing =
    if s.cache.tcbAddrValid then some s.headerOut else none := by
  cases h : s.cache.tcbAddrValid with
  | true =>
    obtain ⟨hv, hp, -⟩ := granted_of_tcbAddrValid (i := i) h
    simp [State.processing, hv, hp, headerOutD_next]
  | false =>
    have hp : (s.next i).tcbMgr.pathD = false :=
      (Writeback.output_path s.tcbMgr.wb (s.tcbMgr.wbInput (s.tcbMgrInput i))).trans h
    simp [State.processing, hp]

end

section

variable (u : ℕ → Input)

theorem paced_run (n : ℕ) : Paced (circuit.run u n) :=
  Circuit.invariant (I := Paced) ⟨rfl, rfl, rfl⟩ (fun _ _ ↦ paced_next) n

theorem stages {t : ℕ} (hp : (circuit.run u t).pop = true) :
    (circuit.run u (t + 1)).busy = true ∧ (circuit.run u (t + 2)).busy = true ∧
      (circuit.run u (t + 2)).cache.tcbAddrValid = true ∧
      (circuit.run u (t + 1)).headerQueue.last = (circuit.run u t).headerOut ∧
      (circuit.run u (t + 2)).headerQueue.last = (circuit.run u t).headerOut := by
  have hq : (circuit.run u (t + 1)).cache.reqValid = true := hp
  have hb : (circuit.run u (t + 1)).busy = true := by
    rw [(paced_run u (t + 1)).busy, hq, Bool.true_or]
  have hp' : (circuit.run u (t + 1)).pop = false := by simp [State.pop, hb]
  have hv : (circuit.run u (t + 2)).cache.tcbAddrValid = true := by
    rw [run_succ, tcbAddrValid_next, hq]
  refine ⟨hb, ?_, hv, ?_, ?_⟩
  · rw [(paced_run u (t + 2)).busy, hv, Bool.or_true]
  · rw [run_succ, last_next, if_pos hp]
  · rw [run_succ, last_next, hp', if_neg Bool.false_ne_true, run_succ, last_next, if_pos hp]

theorem pop_of_busy {n : ℕ} (hb : (circuit.run u n).busy = true) :
    ∃ t, (circuit.run u t).pop = true ∧ (n = t + 1 ∨ n = t + 2) := by
  rw [(paced_run u n).busy, Bool.or_eq_true] at hb
  cases n with
  | zero => rcases hb with hb | hb <;> exact Bool.noConfusion hb
  | succ n =>
    rcases hb with hb | hb
    · exact ⟨n, hb, .inl rfl⟩
    · rw [run_succ, tcbAddrValid_next] at hb
      cases n with
      | zero => exact Bool.noConfusion hb
      | succ n => exact ⟨n, hb, .inr rfl⟩

theorem asItself_iff {t : ℕ} (hp : (circuit.run u t).pop = true) : AsItself u t ↔
    Settled (circuit.run u (t + 1)) ∧ Settled (circuit.run u (t + 2)) := by
  obtain ⟨hb₁, hb₂, hv, hl₁, hl₂⟩ := stages u hp
  have h₁ : Settled (circuit.run u (t + 1)) ↔
      (circuit.run u (t + 1)).headerOut = (circuit.run u t).headerOut := by
    simp only [Settled, hb₁, hl₁, true_imp_iff]
    rfl
  have h₂ : Settled (circuit.run u (t + 2)) ↔
      (circuit.run u (t + 2)).headerOut = (circuit.run u t).headerOut := by
    simp only [Settled, hb₂, hl₂, true_imp_iff]
    rfl
  obtain ⟨hw, hpath, haddr⟩ := granted_of_tcbAddrValid (i := u (t + 2)) hv
  rw [h₁, h₂]
  constructor
  · exact fun h ↦ ⟨h.miss, h.processed⟩
  · rintro ⟨he₁, he₂⟩
    exact ⟨rfl, congrArg Header.tuple he₁, he₁, he₁, he₂, ⟨hw, hpath⟩, haddr⟩

theorem processed_eq (n : ℕ) : processed u (n + 3) = collect (fun t ↦
    if (circuit.run u t).pop then some (circuit.run u (t + 2)).headerOut else none) n := by
  rw [processed, collect_shift]
  · congr 1
    funext t
    rw [run_succ, processing_next, run_succ, tcbAddrValid_next]
    rfl
  · intro k hk
    match k with
    | 0 => rfl
    | 1 => rw [run_succ, processing_next]; rfl
    | 2 => rw [run_succ, processing_next, run_succ, tcbAddrValid_next]; rfl

variable {u}

/-- As long as the header queue never overflows, all headers are processed once, in order and as
themselves exactly if the queue shows the popped header until the stack is no longer busy. -/
theorem processed_iff
    (hd : ∀ n, (u n).h2cTvalid = true → (circuit.run u n).headerQueue.full 64 = false) :
    ((∀ t, (circuit.run u t).pop = true → AsItself u t) ∧
      ∀ n, processed u (n + 3) ++ (circuit.run u n).headerQueue.contents = arrived u n) ↔
      ∀ n, Settled (circuit.run u n) := by
  constructor
  · rintro ⟨h, -⟩ n hb
    obtain ⟨t, hp, rfl | rfl⟩ := pop_of_busy u hb
    · exact ((asItself_iff u hp).mp (h t hp)).1 hb
    · exact ((asItself_iff u hp).mp (h t hp)).2 hb
  · intro h
    have hself : ∀ t, (circuit.run u t).pop = true → AsItself u t := fun t hp ↦
      (asItself_iff u hp).mpr ⟨h (t + 1), h (t + 2)⟩
    refine ⟨hself, fun n ↦ ?_⟩
    have hpop : ∀ t, (if (circuit.run u t).pop then some (circuit.run u (t + 2)).headerOut else none) =
        (circuit.run u t).headerQueue.popped (circuit.run u t).pop := by
      intro t
      rw [popped_eq]
      split_ifs with hp
      · exact congrArg some (hself t hp).processed
      · rfl
    have hpush : ∀ t, (circuit.run u t).headerQueue.pushed 64 (headerIn (u t)) = headerIn (u t) := by
      intro t
      cases hv : (u t).h2cTvalid
      · simp [Fifo.pushed, headerIn, hv]
      · simp [Fifo.pushed, hd t hv]
    have hcons := Fifo.conservation (q := fun k ↦ (circuit.run u k).headerQueue) rfl (fun _ ↦ rfl) n
    simp only [hpush] at hcons
    rw [processed_eq, arrived, ← hcons]
    simp only [hpop]

end

/-- Three SYNs, four cycles apart. -/
def spaced (n : ℕ) : Input where
  h2cTdata := Datapath.segment (BitVec.ofNat 32 (1000 + n)) 0 2
  h2cTvalid := n == 0 || n == 4 || n == 8

theorem spaced_contents (n : ℕ) : (circuit.run spaced (n + 10)).headerQueue.contents = [] := by
  induction n with
  | zero => decide +kernel
  | succ n ih =>
    have hv : (spaced (n + 10)).h2cTvalid = false := by simp [spaced]
    rw [Nat.add_right_comm, run_succ]
    simp [State.next, Fifo.next, Fifo.pushed, headerIn, hv, ih]

theorem spaced_processed : (∀ t, (circuit.run spaced t).pop = true → AsItself spaced t) ∧
    ∀ n, processed spaced (n + 3) ++ (circuit.run spaced n).headerQueue.contents =
      arrived spaced n := by
  have hroom : ∀ n < 9, (circuit.run spaced n).headerQueue.full 64 = false := by decide +kernel
  have hsettled : ∀ n < 10, (circuit.run spaced n).busy = true →
      (circuit.run spaced n).headerQueue.dout = (circuit.run spaced n).headerQueue.last := by
    decide +kernel
  refine (processed_iff fun n hn ↦ ?_).mpr fun n hb ↦ ?_
  · have hlt : n < 9 := by
      simp only [spaced, Bool.or_eq_true, beq_iff_eq] at hn
      omega
    exact hroom n hlt
  · rcases Nat.lt_or_ge n 10 with hlt | hge
    · exact hsettled n hlt hb
    · obtain ⟨k, rfl⟩ := Nat.exists_eq_add_of_le' hge
      exact Fifo.dout_of_nil (spaced_contents k)

def adjacent : ℕ → Input
  | 0 => { h2cTdata := Datapath.segment 1000 0 2, h2cTvalid := true }
  | 1 => { h2cTdata := Datapath.segment 1001 0 16, h2cTvalid := true }
  | _ => {}

theorem adjacent_not_asItself :
    (∀ n, (adjacent n).h2cTvalid = true → (circuit.run adjacent n).headerQueue.full 64 = false) ∧
      ¬∀ t, (circuit.run adjacent t).pop = true → AsItself adjacent t := by
  constructor
  · intro n hn
    match n with
    | 0 | 1 => rfl
    | n + 2 => exact Bool.noConfusion hn
  · intro h
    have hm : (circuit.run adjacent 2).headerOut = (circuit.run adjacent 1).headerOut := (h 1 rfl).miss
    exact absurd hm (by decide +kernel)

end QdmaTrafficGen.TopLevel
