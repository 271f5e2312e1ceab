import QdmaTrafficGen.Clocked.Packets
import QdmaTrafficGen.FlowGen

namespace QdmaTrafficGen.FlowGen

open Clocked

variable {N depth : ℕ}

def State.produced (s : State N) (i : Input N) (j : Fin N) : Option Beat :=
  (s.gen j).produced (s.genInput i j)

def State.sent (s : State N) (i : Input N) (k : Fin N) : Option (Fin N × Beat) :=
  (s.output i).beat.map (k, ·)

/-- The invariant of `flow_gen` when the generators have produced the beats `made` and the beats
`out` have been put out: each FIFO holds what is missing of its generator's beats, and it is never
empty in the middle of a packet. -/
structure Good (depth : ℕ) (s : State N) (made : Fin N → List Beat) (out : List (Fin N × Beat))
    (q : Fin N → List Beat) : Prop where
  queues : ∀ j, AxisFifo.Queues depth (s.fifo j) (q j)
  conserved : ∀ j, made j = ofKey j out ++ q j
  producing : ∀ j, Unfinished Beat.tlast (made j) → (s.gen j).tvalid = true ∧ q j ≠ []
  bubble : ∀ j, (s.fifo j).tlastRdD1 = true → ¬Unfinished Beat.tlast (ofKey j out)
  unbroken : Unbroken Beat.tlast out
  stays : ∀ x ∈ out.getLast?, x.2.tlast = false → s.currentFlow = BitVec.twoPow N x.1

section

variable {s : State N} {i : Input N} {k : Fin N}

theorem pushed_eq (j : Fin N) : (s.fifo j).pushed (s.fifoInput i j) = s.produced i j := rfl

theorem sent_eq (hk : s.currentFlow = BitVec.twoPow N k) :
    s.sent i k = ((s.fifo k).popped (s.fifoInput i k)).map (k, ·) := by
  rw [State.sent, output_eq hk, AxisFifo.popped_eq]
  rfl

theorem popped_of_ne (hk : s.currentFlow = BitVec.twoPow N k) {j : Fin N} (hj : j ≠ k) :
    (s.fifo j).popped (s.fifoInput i j) = none := by
  have hr : (s.fifoInput i j).mTready = false := fifoTready_of_ne hk hj
  rw [AxisFifo.popped_eq, hr, Bool.and_false, if_neg Bool.false_ne_true]

theorem ofKey_sent (hk : s.currentFlow = BitVec.twoPow N k) (j : Fin N) :
    ofKey j (s.sent i k).toList = ((s.fifo j).popped (s.fifoInput i j)).toList := by
  have hkeyed : (s.sent i k).toList = keyed (k, ((s.fifo k).popped (s.fifoInput i k)).toList) := by
    rw [sent_eq hk]
    cases (s.fifo k).popped (s.fifoInput i k) <;> rfl
  rw [hkeyed, ofKey_keyed]
  split
  case isTrue hj => rw [← hj]
  case isFalse hj => rw [popped_of_ne hk (Ne.symm hj), Option.toList_none]

theorem producing_next (hd : 2 ≤ depth) {j : Fin N} {made q q' : List Beat}
    (hq : AxisFifo.Queues depth (s.fifo j) q)
    (hq' : q ++ (s.produced i j).toList = ((s.fifo j).popped (s.fifoInput i j)).toList ++ q')
    (hp : Unfinished Beat.tlast made → (s.gen j).tvalid = true ∧ q ≠ [])
    (h : Unfinished Beat.tlast (made ++ (s.produced i j).toList)) :
    ((s.next depth i).gen j).tvalid = true ∧ q' ≠ [] := by
  have hlen := congrArg List.length hq'
  have hone := Option.length_toList_le (o := (s.fifo j).popped (s.fifoInput i j))
  rw [List.length_append, List.length_append] at hlen
  cases hb : s.produced i j with
  | none =>
    rw [hb, Option.toList_none, List.append_nil] at h
    have hv := (hp h).1
    have hstall : (s.fifo j).sTready = false := TrafficGen.tready_of_stalled hv hb
    have hfull : q.length = depth := hq.full_iff.mp ((Bool.not_eq_false' _).mp hstall)
    refine ⟨TrafficGen.tvalid_of_stalled hv hstall, List.ne_nil_of_length_pos ?_⟩
    omega
  | some b =>
    rw [hb, Option.toList_some, unfinished_concat] at h
    refine ⟨TrafficGen.tvalid_of_produced hb h, ?_⟩
    rintro rfl
    rw [hb, Option.toList_some, List.length_singleton, List.length_nil] at hlen
    obtain rfl : q = [] := List.eq_nil_of_length_eq_zero (by omega)
    rw [hq.popped_nil] at hlen
    simp at hlen

variable {made : Fin N → List Beat} {out : List (Fin N × Beat)} {q : Fin N → List Beat}

theorem Good.mTvalid (h : Good depth s made out q) (hu : Unfinished Beat.tlast (ofKey k out)) :
    (s.fifo k).mTvalid = true := by
  have hbubble : (s.fifo k).tlastRdD1 = false := by
    rw [← Bool.not_eq_true]
    exact fun hb ↦ h.bubble k hb hu
  refine (h.queues k).mTvalid_iff.mpr ⟨fun hnil ↦ ?_, hbubble⟩
  have hmade : made k = ofKey k out := by rw [h.conserved, hnil, List.append_nil]
  exact (h.producing k (hmade ▸ hu)).2 hnil

theorem Good.stays_next (h : Good depth s made out q) (hk : s.currentFlow = BitVec.twoPow N k)
    {x : Fin N × Beat} (hx : x ∈ (out ++ (s.sent i k).toList).getLast?) (hl : x.2.tlast = false) :
    (s.next depth i).currentFlow = BitVec.twoPow N x.1 := by
  rw [sent_eq hk, AxisFifo.popped_eq] at hx
  split at hx
  case isTrue hr =>
    obtain rfl : (k, (s.fifo k).mBeat) = x := by simpa using hx
    exact currentFlow_stays hk (Bool.and_eq_true_iff.mp hr).1 (fun _ ↦ hl) depth
  case isFalse hr =>
    have hx' : x ∈ out.getLast? := by simpa using hx
    obtain rfl : k = x.1 := twoPow_inj (hk.symm.trans (h.stays x hx' hl))
    have hv := h.mTvalid ⟨x.2, getLast?_ofKey hx', hl⟩
    refine currentFlow_stays hk hv (fun ht ↦ ?_) depth
    exact absurd (Bool.and_eq_true_iff.mpr ⟨hv, ht⟩) hr

theorem Good.next (h : Good depth s made out q) (hd : 2 ≤ depth)
    (hk : s.currentFlow = BitVec.twoPow N k) :
    ∃ q', Good depth (s.next depth i) (fun j ↦ made j ++ (s.produced i j).toList)
      (out ++ (s.sent i k).toList) q' := by
  have hnext : ∀ j, ∃ q', AxisFifo.Queues depth ((s.next depth i).fifo j) q' ∧
      q j ++ (s.produced i j).toList = ((s.fifo j).popped (s.fifoInput i j)).toList ++ q' := by
    intro j
    rw [← pushed_eq]
    exact (h.queues j).next
  choose q' hq' hcons using hnext
  refine ⟨q', hq', ?_, ?_, ?_, ?_, ?_⟩
  · intro j
    rw [ofKey_append, ofKey_sent hk, h.conserved, List.append_assoc, hcons, List.append_assoc]
  · exact fun j ↦ producing_next hd (h.queues j) (hcons j) (h.producing j)
  · intro j hb
    obtain ⟨hl, hr⟩ : (s.fifo j).mBeat.tlast = true ∧
        (s.fifo j).readEn (s.fifoInput i j) = true := Bool.and_eq_true_iff.mp hb
    rw [ofKey_append, ofKey_sent hk, AxisFifo.State.popped, if_pos hr, Option.toList_some,
      unfinished_concat, hl]
    exact Bool.true_eq_false_eq_False
  · rw [sent_eq hk]
    cases (s.fifo k).popped (s.fifoInput i k) with
    | none => simpa using h.unbroken
    | some b =>
      refine unbroken_concat.mpr ⟨h.unbroken, fun y hy hl ↦ ?_⟩
      exact twoPow_inj (hk.symm.trans (h.stays y hy hl))
  · exact fun x ↦ h.stays_next hk

theorem good_reset (hd : 2 ≤ depth) (mem : Fin N → ℕ → Beat) (config : Fin N → FlowConfig) :
    Good depth (circuit depth mem config).reset (fun _ ↦ []) [] fun _ ↦ [] where
  queues := fun j ↦ AxisFifo.queues_reset (by omega) (mem j)
  conserved := fun _ ↦ rfl
  producing := fun _ h ↦ by simp [Unfinished] at h
  bubble := fun _ h ↦ by simp [circuit] at h
  unbroken := List.isChain_nil
  stays := by simp

end

section

variable (depth) (mem : Fin N → ℕ → Beat) (config : Fin N → FlowConfig) (u : ℕ → Input N)

theorem oneHot_run (hN : 0 < N) (n : ℕ) : OneHot ((circuit depth mem config).run u n).currentFlow :=
  Circuit.invariant (I := fun s : State N ↦ OneHot s.currentFlow)
    ⟨⟨0, hN⟩, (BitVec.twoPow_zero).symm⟩ (fun _ _ h ↦ oneHot_next h depth) n

variable {depth mem config u}

theorem good_run (hd : 2 ≤ depth) {flow : ℕ → Fin N}
    (hflow : ∀ n, ((circuit depth mem config).run u n).currentFlow = BitVec.twoPow N (flow n))
    (n : ℕ) : ∃ q, Good depth ((circuit depth mem config).run u n)
      (fun j ↦ collect (fun t ↦ ((circuit depth mem config).run u t).produced (u t) j) n)
      (collect (fun t ↦ ((circuit depth mem config).run u t).sent (u t) (flow t)) n) q := by
  induction n with
  | zero => exact ⟨_, good_reset hd mem config⟩
  | succ n ih =>
    obtain ⟨q, hq⟩ := ih
    exact hq.next hd (hflow n)

end

/-- No packets are interleaved in the run: one flow is current in each cycle, every beat comes with
the configuration of this flow, the beats that are put out are whole packets of one flow each, taken
from what the generators produced, and the current flow does not change while a packet is unfinished. -/
def NeverInterleaves (depth : ℕ) (mem : Fin N → ℕ → Beat) (config : Fin N → FlowConfig)
    (u : ℕ → Input N) : Prop :=
  let s := (circuit depth mem config).run u
  ∃ flow : ℕ → Fin N,
    (∀ n, (s n).currentFlow = BitVec.twoPow N (flow n)) ∧
    (∀ n, ((s n).output (u n)).rxValid = true →
      ((s n).output (u n)).hashVal = ((u n).flowConfig (flow n)).hashVal ∧
      ((s n).output (u n)).pktSize = ((u n).flowConfig (flow n)).pktSize) ∧
    ∀ n, ∃ packets rest,
      Framed Beat.tlast (collect (fun t ↦ (s t).sent (u t) (flow t)) n)
        (fun j ↦ collect (fun t ↦ (s t).produced (u t) j) n) packets rest ∧
      (rest.2 ≠ [] → flow n = rest.1)

/-- `flow_gen` never interleaves packets, whatever the configurations, the running flows and the
back-pressure are in each cycle. -/
theorem never_interleaves (hN : 2 ≤ N) (hd : 2 ≤ depth) (mem : Fin N → ℕ → Beat)
    (config : Fin N → FlowConfig) (u : ℕ → Input N) : NeverInterleaves depth mem config u := by
  choose flow hflow using oneHot_run depth mem config u (show 0 < N by omega)
  refine ⟨flow, hflow, ?_, fun n ↦ ?_⟩
  · intro n _
    rw [output_eq (hflow n)]
    exact ⟨rfl, rfl⟩
  · obtain ⟨q, hq⟩ := good_run hd hflow n
    have : Nonempty (Fin N) := ⟨flow 0⟩
    obtain ⟨packets, rest, hf⟩ := hq.unbroken.framed fun j ↦ ⟨q j, (hq.conserved j).symm⟩
    refine ⟨packets, rest, hf, fun hne ↦ ?_⟩
    obtain ⟨x, hx, hk, hl⟩ := hf.getLast? hne
    rw [← hk]
    exact twoPow_inj ((hflow n).symm.trans (hq.stays x hx hl))

def burst : ℕ → Input 2 := fun _ ↦ { flowConfig := fun _ ↦ { pktSize := 128 }, flowRunning := 3 }

theorem burst_never_interleaves :
    (collect (fun t ↦ (((circuit 2 (fun _ _ ↦ {}) fun _ ↦ {}).run burst t).output (burst t)).beat)
      7).map (·.tlast) = [false, true, false, true] ∧
      NeverInterleaves 2 (fun _ _ ↦ {}) (fun _ ↦ {}) burst :=
  ⟨by decide +kernel, never_interleaves (by decide) (by decide) _ _ _⟩

end QdmaTrafficGen.FlowGen
