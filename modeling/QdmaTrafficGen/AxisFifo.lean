import QdmaTrafficGen.Clocked.Ring
import QdmaTrafficGen.Clocked.Run
import QdmaTrafficGen.Packages

namespace QdmaTrafficGen.AxisFifo

open Clocked

/-- The registers of `axis_fifo` for `W` data bits; `mem` is `data_mem` with `tlast_mem`. -/
structure State (W : ℕ := 512) where
  mem : ℕ → Beat W := fun _ ↦ {}
  wrPtr : ℕ := 0
  rdPtr : ℕ := 0
  fullReg : Bool := false
  emptyReg : Bool := true
  tlastRdD1 : Bool := false

structure Input (W : ℕ := 512) where
  sTvalid : Bool := false
  sBeat : Beat W := {}
  mTready : Bool := false

namespace State

variable {W : ℕ} (depth : ℕ) (s : State W) (i : Input W)

def sTready : Bool := !s.fullReg

def mTvalid : Bool := !s.emptyReg && !s.tlastRdD1

def mBeat : Beat W := s.mem s.rdPtr

def writeEn : Bool := i.sTvalid && !s.fullReg

def readEn : Bool := !s.emptyReg && i.mTready && !s.tlastRdD1

def next : State W where
  mem := if s.writeEn i then Function.update s.mem s.wrPtr i.sBeat else s.mem
  wrPtr := if s.writeEn i then Ring.succ depth s.wrPtr else s.wrPtr
  rdPtr := if s.readEn i then Ring.succ depth s.rdPtr else s.rdPtr
  fullReg :=
    match s.writeEn i, s.readEn i with
    | true, false => if Ring.succ depth s.wrPtr = s.rdPtr then true else s.fullReg
    | false, true => false
    | _, _ => s.fullReg
  emptyReg :=
    match s.writeEn i, s.readEn i with
    | true, false => false
    | false, true => if Ring.succ depth s.rdPtr = s.wrPtr then true else s.emptyReg
    | _, _ => s.emptyReg
  tlastRdD1 := s.mBeat.tlast && s.readEn i

def pushed : Option (Beat W) := if s.writeEn i then some i.sBeat else none

def popped : Option (Beat W) := if s.readEn i then some s.mBeat else none

end State

/-- The FIFO holds `q`, and its registered flags say so. -/
structure Queues {W : ℕ} (depth : ℕ) (s : State W) (q : List (Beat W)) : Prop where
  holds : Ring.Holds depth s.mem s.rdPtr s.wrPtr q
  full_iff : s.fullReg = true ↔ q.length = depth
  empty_iff : s.emptyReg = true ↔ q = []

section

variable {W depth : ℕ} {s : State W} {i : Input W} {q : List (Beat W)}

theorem popped_eq : s.popped i = if s.mTvalid && i.mTready then some s.mBeat else none := by
  rw [State.popped, State.readEn, State.mTvalid, Bool.and_right_comm]

theorem queues_reset (hd : 0 < depth) (mem : ℕ → Beat W) : Queues depth { mem } [] where
  holds := .nil hd
  full_iff := by simp [hd.ne]
  empty_iff := by simp

namespace Queues

theorem room (h : Queues depth s q) (hw : s.writeEn i = true) : q.length < depth := by
  simp only [State.writeEn, Bool.and_eq_true, Bool.not_eq_true', ← Bool.not_eq_true, h.full_iff] at hw
  have := h.holds.length_le
  omega

theorem eq_cons (h : Queues depth s q) (hr : s.readEn i = true) : ∃ q', q = s.mBeat :: q' := by
  simp only [State.readEn, Bool.and_eq_true, Bool.not_eq_true', ← Bool.not_eq_true, h.empty_iff] at hr
  obtain ⟨b, q', rfl⟩ := List.exists_cons_of_ne_nil hr.1.1
  exact ⟨q', by rw [State.mBeat, h.holds.head]⟩

theorem popped_nil (h : Queues depth s []) : s.popped i = none := by
  have he : s.emptyReg = true := h.empty_iff.mpr rfl
  simp only [State.popped, State.readEn, he, Bool.not_true, Bool.false_and, Bool.false_eq_true, if_false]

theorem mTvalid_iff (h : Queues depth s q) : s.mTvalid = true ↔ q ≠ [] ∧ s.tlastRdD1 = false := by
  rw [State.mTvalid, Bool.and_eq_true, Bool.not_eq_true', Bool.not_eq_true', ← Bool.not_eq_true,
    h.empty_iff]

theorem next (h : Queues depth s q) : ∃ q', Queues depth (s.next depth i) q' ∧
    q ++ (s.pushed i).toList = (s.popped i).toList ++ q' := by
  cases hw : s.writeEn i <;> cases hr : s.readEn i
  · refine ⟨q, ⟨?_, ?_, ?_⟩, by simp [State.pushed, State.popped, hw, hr]⟩
    · simpa [State.next, hw, hr] using h.holds
    · simpa [State.next, hw, hr] using h.full_iff
    · simpa [State.next, hw, hr] using h.empty_iff
  · obtain ⟨q', rfl⟩ := h.eq_cons hr
    refine ⟨q', ⟨?_, ?_, ?_⟩, by simp [State.pushed, State.popped, hw, hr]⟩
    · simpa [State.next, hw, hr] using h.holds.pop
    · have hl : q'.length < depth := h.holds.length_le
      simp [State.next, hw, hr, hl.ne]
    · have he : s.emptyReg = false := by simp [← Bool.not_eq_true, h.empty_iff]
      simp [State.next, hw, hr, h.holds.succ_rd_eq_wr, he]
  · have hl := h.room hw
    refine ⟨q ++ [i.sBeat], ⟨?_, ?_, ?_⟩, by simp [State.pushed, State.popped, hw, hr]⟩
    · simpa [State.next, hw, hr] using h.holds.push hl i.sBeat
    · have hf : s.fullReg = false := by simp [← Bool.not_eq_true, h.full_iff, hl.ne]
      simp [State.next, hw, hr, h.holds.succ_wr_eq_rd hl, hf]
    · simp [State.next, hw, hr]
  · have hl := h.room hw
    obtain ⟨q', rfl⟩ := h.eq_cons hr
    refine ⟨q' ++ [i.sBeat], ⟨?_, ?_, ?_⟩, by simp [State.pushed, State.popped, hw, hr]⟩
    · simpa [State.next, hw, hr] using (h.holds.push hl i.sBeat).pop
    · simpa [State.next, hw, hr] using h.full_iff
    · simpa [State.next, hw, hr] using h.empty_iff

theorem head (h : Queues depth s q) (hv : s.mTvalid = true) : q.head? = some s.mBeat := by
  obtain ⟨b, q', rfl⟩ := List.exists_cons_of_ne_nil (h.mTvalid_iff.mp hv).1
  rw [List.head?_cons, State.mBeat, h.holds.head]

end Queues

theorem Queues.stays (h : Queues depth s q) (hv : s.mTvalid = true) (hr : i.mTready = false) :
    (s.next depth i).mTvalid = true ∧ (s.next depth i).mBeat = s.mBeat := by
  have hread : s.readEn i = false := by rw [State.readEn, hr, Bool.and_false, Bool.false_and]
  have hpop : s.popped i = none := by rw [State.popped, hread, if_neg Bool.false_ne_true]
  obtain ⟨q', hq', hcons⟩ := h.next (i := i)
  rw [hpop, Option.toList_none, List.nil_append] at hcons
  have hne : q' ≠ [] := by
    rw [← hcons]
    exact List.append_ne_nil_of_left_ne_nil (h.mTvalid_iff.mp hv).1 _
  have hv' : (s.next depth i).mTvalid = true := by
    refine hq'.mTvalid_iff.mpr ⟨hne, ?_⟩
    rw [State.next, hread, Bool.and_false]
  refine ⟨hv', Option.some.inj ?_⟩
  rw [← hq'.head hv', ← hcons, List.head?_append, h.head hv, Option.some_or]

end

/-- `axis_fifo` with room for `depth` beats, whose memory holds `mem` during reset. -/
def circuit {W : ℕ} (depth : ℕ) (mem : ℕ → Beat W) : Circuit (Input W) (State W) where
  reset := { mem }
  next := State.next depth

namespace State

variable {W : ℕ} (s : State W) (i : Input W)

def accepted : Option (Beat W) := if i.sTvalid && s.sTready then some i.sBeat else none

def taken : Option (Beat W) := if s.mTvalid && i.mTready then some s.mBeat else none

end State

/-- The run is one of a queue for `depth` beats. Of the beats that were accepted, those that were
taken come first and the others are stored; the flags tell whether none or `depth` beats are stored;
the oldest stored beat is at the output, except after the last beat of a packet, and stays there
until it is taken. -/
structure BoundedQueue {W : ℕ} (depth : ℕ) (s : ℕ → State W) (u : ℕ → Input W)
    (stored : ℕ → List (Beat W)) : Prop where
  conserved : ∀ n, collect (fun t ↦ (s t).accepted (u t)) n =
    collect (fun t ↦ (s t).taken (u t)) n ++ stored n
  length_le : ∀ n, (stored n).length ≤ depth
  empty_iff : ∀ n, (s n).emptyReg = true ↔ (stored n).length = 0
  full_iff : ∀ n, (s n).fullReg = true ↔ (stored n).length = depth
  head : ∀ n, (s n).mTvalid = true → (stored n).head? = some (s n).mBeat
  stays : ∀ n, (s n).mTvalid = true → (s n).taken (u n) = none →
    (s (n + 1)).mTvalid = true ∧ (s (n + 1)).mBeat = (s n).mBeat
  bubble : ∀ n b, (s n).taken (u n) = some b → b.tlast = true → (s (n + 1)).taken (u (n + 1)) = none
  valid : ∀ n, stored (n + 1) ≠ [] → (∀ b, (s n).taken (u n) = some b → b.tlast = false) →
    (s (n + 1)).mTvalid = true

section

variable {W depth : ℕ} (mem : ℕ → Beat W) (u : ℕ → Input W)

theorem queues_run (hd : 0 < depth) (n : ℕ) :
    ∃ q, Queues depth ((circuit depth mem).run u n) q ∧
      collect (fun t ↦ ((circuit depth mem).run u t).accepted (u t)) n =
        collect (fun t ↦ ((circuit depth mem).run u t).taken (u t)) n ++ q := by
  induction n with
  | zero => exact ⟨[], queues_reset hd mem, rfl⟩
  | succ n ih =>
    obtain ⟨q, hq, hcons⟩ := ih
    obtain ⟨q', hq', hstep⟩ := hq.next (i := u n)
    refine ⟨q', hq', ?_⟩
    rw [popped_eq] at hstep
    rw [collect_succ, hcons, List.append_assoc, collect_succ, List.append_assoc]
    exact congrArg _ hstep

theorem tlastRdD1_next (s : State W) (i : Input W) :
    (s.next depth i).tlastRdD1 = true ↔ ∃ b, s.taken i = some b ∧ b.tlast = true := by
  rw [State.taken, ← popped_eq, State.popped, State.next, Bool.and_eq_true]
  cases s.readEn i with
  | false => simp
  | true => simp

/-- `axis_fifo` is a bounded queue, whatever is written and whenever it is read. -/
theorem bounded_queue (hd : 2 ≤ depth) :
    ∃ stored, BoundedQueue depth ((circuit depth mem).run u) u stored := by
  choose q hq hcons using queues_run mem u (show 0 < depth by omega)
  refine ⟨q, hcons, fun n ↦ (hq n).holds.length_le, fun n ↦ ?_, fun n ↦ (hq n).full_iff,
    fun n ↦ (hq n).head, fun n hv ht ↦ ?_, fun n b hb hl ↦ ?_, fun n hne hl ↦ ?_⟩
  · rw [(hq n).empty_iff, List.length_eq_zero_iff]
  · refine (hq n).stays hv ?_
    rw [State.taken, hv, Bool.true_and] at ht
    simpa using ht
  · have hlast : ((circuit depth mem).run u (n + 1)).tlastRdD1 = true :=
      (tlastRdD1_next _ _).mpr ⟨b, hb, hl⟩
    rw [State.taken, State.mTvalid, hlast, Bool.not_true, Bool.and_false, Bool.false_and,
      if_neg Bool.false_ne_true]
  · refine (hq (n + 1)).mTvalid_iff.mpr ⟨hne, ?_⟩
    rw [← Bool.not_eq_true]
    intro hlast
    obtain ⟨b, hb, ht⟩ := (tlastRdD1_next _ _).mp hlast
    exact Bool.false_ne_true ((hl b hb).symm.trans ht)

def packets (n : ℕ) : Input 8 where
  sTvalid := n < 3
  sBeat := ⟨n, n ≠ 0⟩
  mTready := n ≠ 2

theorem packets_bounded_queue :
    collect (fun t ↦ ((circuit 2 fun _ ↦ {}).run packets t).taken (packets t)) 7 =
      [⟨0, false⟩, ⟨1, true⟩, ⟨2, true⟩] ∧
    ∃ stored, BoundedQueue 2 ((circuit 2 fun _ ↦ {}).run packets) packets stored :=
  ⟨by decide +kernel, bounded_queue _ _ (by decide)⟩

end

end QdmaTrafficGen.AxisFifo
