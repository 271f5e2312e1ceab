import Mathlib.Algebra.Group.Int.Defs
import QdmaTrafficGen.Clocked.Run

namespace QdmaTrafficGen.Credits

open Clocked

/-- The status updates of the traffic manager and the C2H stream, at the ports of `axi_st_module`. -/
structure Input where
  tmDscStsVld : Bool := false
  tmDscStsQen : Bool := false
  tmDscStsDir : Bool := false
  tmDscStsMm : Bool := false
  tmDscStsQid : BitVec 11 := 0
  tmDscStsAvl : BitVec 16 := 0
  tmDscStsQinv : Bool := false
  tvalid : Bool := false
  tready : Bool := false
  tlast : Bool := false
  ctrlQid : BitVec 11 := 0

namespace Input

variable (i : Input)

def tmUpdate : Bool :=
  i.tmDscStsVld && (i.tmDscStsQen || i.tmDscStsQinv) && !i.tmDscStsMm && i.tmDscStsDir

def pktConsume : Bool := i.tvalid && i.tready && i.tlast

end Input

structure State where
  tmUpdateD1 : Bool
  tmDscStsAvlD1 : BitVec 16
  tmDscStsQidD1 : BitVec 11
  tmDscStsQinvD1 : Bool
  pktConsumeD1 : Bool
  consumeQidD1 : BitVec 11
  creditReg : Fin 16 → BitVec 32

/-- A write to an element of `credit_reg`; there is none beyond the last queue. -/
def assign (creditReg : Fin 16 → BitVec 32) (qid : BitVec 11) (v : BitVec 32 → BitVec 32) :
    Fin 16 → BitVec 32 :=
  fun q ↦ if q.val = qid.toNat then v (creditReg q) else creditReg q

namespace State

variable (s : State) (i : Input)

def wrConflict : Bool := s.tmUpdateD1 && s.pktConsumeD1 && s.tmDscStsQidD1 == s.consumeQidD1

def creditNext : Fin 16 → BitVec 32 :=
  if s.wrConflict then
    assign s.creditReg s.tmDscStsQidD1 fun c ↦
      if s.tmDscStsQinvD1 then 0 else c + s.tmDscStsAvlD1.setWidth 32 - 1
  else
    let updated :=
      if s.tmUpdateD1 then
        assign s.creditReg s.tmDscStsQidD1 fun c ↦
          if s.tmDscStsQinvD1 then 0 else c + s.tmDscStsAvlD1.setWidth 32
      else s.creditReg
    if s.pktConsumeD1 then
      fun q ↦ if q.val = s.consumeQidD1.toNat then s.creditReg q - 1 else updated q
    else updated

def next : State where
  tmUpdateD1 := i.tmUpdate
  tmDscStsAvlD1 := i.tmDscStsAvl
  tmDscStsQidD1 := i.tmDscStsQid
  tmDscStsQinvD1 := i.tmDscStsQinv
  pktConsumeD1 := i.pktConsume
  consumeQidD1 := i.ctrlQid
  creditReg := s.creditNext

/-- Reset only clears the credits; the delayed signals are those of its last cycle. -/
def ofReset : State where
  tmUpdateD1 := i.tmUpdate
  tmDscStsAvlD1 := i.tmDscStsAvl
  tmDscStsQidD1 := i.tmDscStsQid
  tmDscStsQinvD1 := i.tmDscStsQinv
  pktConsumeD1 := i.pktConsume
  consumeQidD1 := i.ctrlQid
  creditReg := fun _ ↦ 0

end State

def circuit (last : Input) : Circuit Input State := ⟨.ofReset last, State.next⟩

inductive Event
  | consume (qid : BitVec 11)
  | update (qid : BitVec 11) (avl : BitVec 16)
  | invalidate (qid : BitVec 11)

def enter (q : Fin 16) (credit : ℤ) : Event → ℤ
  | .consume qid => if q.val = qid.toNat then credit - 1 else credit
  | .update qid avl => if q.val = qid.toNat then credit + avl.toNat else credit
  | .invalidate qid => if q.val = qid.toNat then 0 else credit

def ledger (q : Fin 16) (es : List Event) : ℤ := es.foldl (enter q) 0

/-- The events of a cycle, the packet's before that of the traffic manager. -/
def Input.events (i : Input) : List Event :=
  (if i.pktConsume then [.consume i.ctrlQid] else []) ++
    if i.tmUpdate then
      [if i.tmDscStsQinv then .invalidate i.tmDscStsQid else .update i.tmDscStsQid i.tmDscStsAvl]
    else []

def State.events (s : State) : List Event :=
  (if s.pktConsumeD1 then [.consume s.consumeQidD1] else []) ++
    if s.tmUpdateD1 then
      [if s.tmDscStsQinvD1 then .invalidate s.tmDscStsQidD1
        else .update s.tmDscStsQidD1 s.tmDscStsAvlD1]
    else []

/-- The inputs from the last cycle of reset on. -/
def since (last : Input) (u : ℕ → Input) : ℕ → Input
  | 0 => last
  | n + 1 => u n

theorem ofInt_sub_one (c : ℤ) : BitVec.ofInt 32 (c - 1) = BitVec.ofInt 32 c - 1 := by
  rw [Int.sub_eq_add_neg, BitVec.ofInt_add, BitVec.sub_eq_add_neg]
  rfl

theorem ofInt_add_avl (c : ℤ) (avl : BitVec 16) :
    BitVec.ofInt 32 (c + avl.toNat) = BitVec.ofInt 32 c + avl.setWidth 32 := by
  rw [BitVec.ofInt_add, BitVec.ofInt_natCast, BitVec.ofNat_toNat]

section

variable {s : State} {q : Fin 16}

theorem assign_apply (r : Fin 16 → BitVec 32) (qid : BitVec 11) (v : BitVec 32 → BitVec 32) :
    assign r qid v q = if q.val = qid.toNat then v (r q) else r q := rfl

/-- All coincidences of a packet and an update act like the packet followed by the update. -/
theorem creditNext_apply (s : State) (q : Fin 16) :
    s.creditNext q =
      let paid :=
        if s.pktConsumeD1 ∧ q.val = s.consumeQidD1.toNat then s.creditReg q - 1 else s.creditReg q
      if s.tmUpdateD1 ∧ q.val = s.tmDscStsQidD1.toNat then
        if s.tmDscStsQinvD1 then 0 else paid + s.tmDscStsAvlD1.setWidth 32
      else paid := by
  by_cases hw : s.wrConflict = true
  · obtain ⟨⟨hu, hp⟩, hq⟩ : (s.tmUpdateD1 = true ∧ s.pktConsumeD1 = true) ∧
        s.tmDscStsQidD1 = s.consumeQidD1 := by
      simpa only [State.wrConflict, Bool.and_eq_true, beq_iff_eq] using hw
    have hswap : ∀ c d : BitVec 32, c + d - 1 = c - 1 + d := by
      intro c d
      bv_omega
    simp only [State.creditNext, hw, if_true, assign_apply, hu, hp, hq, true_and, hswap]
    split_ifs
    · rfl
    · rfl
    · rfl
  · simp only [State.creditNext, hw, Bool.false_eq_true, if_false]
    cases hp : s.pktConsumeD1 with
    | false =>
      simp only [Bool.false_eq_true, if_false, false_and]
      cases hu : s.tmUpdateD1 with
      | false => simp only [Bool.false_eq_true, if_false, false_and]
      | true => simp only [if_true, true_and, assign_apply]
    | true =>
      cases hu : s.tmUpdateD1 with
      | false => simp only [Bool.false_eq_true, if_true, if_false, true_and, false_and]
      | true =>
        -- without a conflict the two writes go to different queues
        have hne : s.tmDscStsQidD1.toNat ≠ s.consumeQidD1.toNat := by
          intro hq
          exact hw (by rw [State.wrConflict, hu, hp, BitVec.eq_of_toNat_eq hq, beq_self_eq_true]; rfl)
        simp only [if_true, true_and, assign_apply]
        by_cases hq : q.val = s.tmDscStsQidD1.toNat
        · rw [hq, if_neg hne, if_neg hne]
        · rw [if_neg hq, if_neg hq]

theorem foldl_events (s : State) (q : Fin 16) (c : ℤ) :
    s.events.foldl (enter q) c =
      let paid := if s.pktConsumeD1 ∧ q.val = s.consumeQidD1.toNat then c - 1 else c
      if s.tmUpdateD1 ∧ q.val = s.tmDscStsQidD1.toNat then
        if s.tmDscStsQinvD1 then 0 else paid + s.tmDscStsAvlD1.toNat
      else paid := by
  unfold State.events
  cases s.pktConsumeD1 <;> cases s.tmUpdateD1 <;> cases s.tmDscStsQinvD1 <;> simp [enter]

theorem creditNext_eq {c : ℤ} (h : s.creditReg q = BitVec.ofInt 32 c) :
    s.creditNext q = BitVec.ofInt 32 (s.events.foldl (enter q) c) := by
  rw [creditNext_apply, foldl_events, h]
  simp only
  split_ifs
  · rfl
  · rw [ofInt_add_avl, ofInt_sub_one]
  · rw [ofInt_add_avl]
  · rw [ofInt_sub_one]
  · rfl

end

section

variable (last : Input) (u : ℕ → Input) (n : ℕ) (q : Fin 16)

theorem events_run : ((circuit last).run u n).events = (since last u n).events := by
  cases n with
  | zero => rfl
  | succ n => rfl

/-- Whatever coincides, the credits of a queue are what a ledger makes of the events one by one. -/
theorem creditReg_run : ((circuit last).run u n).creditReg q =
    BitVec.ofInt 32 (ledger q ((List.range n).flatMap fun k ↦ (since last u k).events)) := by
  induction n with
  | zero => rfl
  | succ n ih =>
    rw [List.range_succ, List.flatMap_append, List.flatMap_singleton, ledger, List.foldl_append,
      ← events_run]
    exact creditNext_eq ih

end

end QdmaTrafficGen.Credits
