import QdmaTrafficGen.Transmission

namespace QdmaTrafficGen.Rto

open Clocked

def written (u : ℕ → Input) (n : ℕ) : Entry := ⟨(u n).tcbAddrIn, (u n).tcbDataIn⟩

/-- The cycles in which the entries of the priority queue and of the wheel were written. -/
structure Stamps where
  queue : Fifo ℕ := .reset
  wheel : Wheel → Option ℕ := fun _ ↦ none

def State.pops (s : State) (i : Input) : Bool := (s.arbiter i).grantHp && i.txDatapathReady

def Stamps.next (t : Stamps) (s : State) (i : Input) (n : ℕ) : Stamps where
  queue := t.queue.next 32 ((hpDin i).map fun _ ↦ n) (s.pops i)
  wheel :=
    let edited :=
      if s.cancels i then Function.update t.wheel (s.slotIdx i) none
      else if s.arms i then Function.update t.wheel (s.slot i) (some n)
      else t.wheel
    if s.tick then Function.update edited s.rdPtr none else edited

def stamps (u : ℕ → Input) : ℕ → Stamps
  | 0 => {}
  | n + 1 => (stamps u n).next (circuit.run u n) (u n) n

/-- The cycle in which the entry that is handed to the transmit path was written. -/
def source (u : ℕ → Input) (n : ℕ) : Option ℕ :=
  if (circuit.run u n).tcbAddrOutValid (u n) then
    if ((circuit.run u n).arbiter (u n)).grantLp then (stamps u n).wheel (circuit.run u n).rdPtr
    else (stamps u n).queue.contents.head?
  else none

section

variable {t : Stamps} {s : State} {i : Input} {n : ℕ}

theorem hpDin_stamp (u : ℕ → Input) (n : ℕ) :
    ((hpDin (u n)).map fun _ ↦ n).map (written u) = hpDin (u n) := by
  simp only [hpDin]
  split
  case isTrue => rfl
  case isFalse => rfl

theorem wheel_next {x : Wheel} {w : ℕ} (h : (t.next s i n).wheel x = some w) :
    w = n ∧ s.arms i = true ∧ x = s.slot i ∨ t.wheel x = some w ∧ ¬(s.tick = true ∧ x = s.rdPtr) ∧
      ¬(s.cancels i = true ∧ x = s.slotIdx i) := by
  simp only [Stamps.next] at h
  have hlive : ¬(s.tick = true ∧ x = s.rdPtr) ∧
      (if s.cancels i then Function.update t.wheel (s.slotIdx i) none
        else if s.arms i then Function.update t.wheel (s.slot i) (some n) else t.wheel) x = some w := by
    split at h
    case isTrue =>
      obtain ⟨hx, h⟩ := update_none_eq_some.mp h
      exact ⟨fun hc ↦ hx hc.2, h⟩
    case isFalse ht => exact ⟨fun hc ↦ ht hc.1, h⟩
  obtain ⟨hexp, h⟩ := hlive
  split at h
  case isTrue =>
    obtain ⟨hx, h⟩ := update_none_eq_some.mp h
    exact .inr ⟨h, hexp, fun hc ↦ hx hc.2⟩
  case isFalse hc =>
    split at h
    case isFalse => exact .inr ⟨h, hexp, fun hc' ↦ hc hc'.1⟩
    case isTrue ha =>
      by_cases hx : x = s.slot i
      · rw [hx, Function.update_self] at h
        exact .inl ⟨(Option.some.inj h).symm, ha, hx⟩
      · rw [Function.update_of_ne hx] at h
        exact .inr ⟨h, hexp, fun hc' ↦ hc hc'.1⟩

theorem queue_next {w : ℕ} (h : w ∈ (t.next s i n).queue.contents) :
    w = n ∧ hpDin i ≠ none ∨
      w ∈ t.queue.remaining (s.pops i) := by
  rcases List.mem_append.mp h with h | h
  · exact .inr h
  · left
    rw [Fifo.pushed] at h
    split at h
    case isTrue => exact absurd h (by simp)
    case isFalse =>
      obtain ⟨e, he, hw⟩ := Option.map_eq_some_iff.mp (Option.mem_toList.mp h)
      exact ⟨hw.symm, fun hn ↦ Option.some_ne_none e (he.symm.trans hn)⟩

end

section

variable (u : ℕ → Input)

theorem queue_stamps (n : ℕ) : (circuit.run u n).priorityQueue.contents =
    (stamps u n).queue.contents.map (written u) := by
  induction n with
  | zero => rfl
  | succ n ih =>
    rw [run_succ, State.next]
    conv_lhs => rw [← hpDin_stamp u n]
    exact Fifo.contents_map ih

theorem wheel_stamps (n : ℕ) :
    (circuit.run u n).timerWheel = Option.map (written u) ∘ (stamps u n).wheel := by
  induction n with
  | zero => rfl
  | succ n ih =>
    simp only [run_succ, State.next, State.timerWheelNext, stamps, Stamps.next, ih]
    split_ifs <;> simp only [Function.comp_update, Option.map_none, Option.map_some, written]

variable {u} {n w : ℕ}

theorem out_eq_source (hr : (u n).txDatapathReady = true) :
    (circuit.run u n).out (u n) = (source u n).map (written u) := by
  rw [State.out, source]
  split
  case isFalse => rfl
  case isTrue hv =>
    have hwheel : (circuit.run u n).timerWheelVal =
        ((stamps u n).wheel (circuit.run u n).rdPtr).map (written u) :=
      congrFun (wheel_stamps u n) _
    cases hq : (circuit.run u n).hpValid with
    | true =>
      by_cases hw : (circuit.run u n).overQuota = true → (circuit.run u n).timerWheelVal = none
      · rw [arbiter_queue hr hq hw, if_neg Bool.false_ne_true, ← List.head?_map, ← queue_stamps,
          head_of_hpValid hq]
      · obtain ⟨h4, hne⟩ := Classical.not_imp.mp hw
        obtain ⟨e, he⟩ := Option.ne_none_iff_exists'.mp hne
        rw [arbiter_wheel hr he h4, if_pos rfl, ← hwheel, he]
    | false =>
      rw [State.tcbAddrOutValid, hq, Bool.false_or, hr, Bool.and_true, Bool.and_eq_true] at hv
      obtain ⟨e, he⟩ := Option.isSome_iff_exists.mp hv.1
      have ha : (circuit.run u n).arbiter (u n) = { grantLp := true, entry := e } := by
        simp [State.arbiter, hr, hq, he]
      rw [ha, if_pos rfl, ← hwheel, he]

/-- What is written in cycle `w` goes to the priority queue or to the wheel. -/
def Enters (u : ℕ → Input) (w : ℕ) : Prop :=
  hpDin (u w) ≠ none ∨ (circuit.run u w).arms (u w) = true

theorem Enters.write (h : Enters u w) : (u w).write = true := by
  rcases h with h | h
  · by_contra hw
    simp [hpDin, hw] at h
  · simp only [State.arms, Bool.and_eq_true] at h
    exact h.1.2

structure Stamps.Past (t : Stamps) (u : ℕ → Input) (n : ℕ) : Prop where
  queue : ∀ w ∈ t.queue.contents, w < n ∧ hpDin (u w) ≠ none
  wheel : ∀ x w, t.wheel x = some w →
    w < n ∧ (circuit.run u w).arms (u w) = true ∧ x = (circuit.run u w).slot (u w)

theorem past_stamps (u : ℕ → Input) (n : ℕ) : (stamps u n).Past u n := by
  induction n with
  | zero => exact ⟨by simp [stamps], by simp [stamps]⟩
  | succ n ih =>
    refine ⟨fun w hw ↦ ?_, fun x w hw ↦ ?_⟩
    · rcases queue_next hw with ⟨rfl, hn⟩ | hw
      · exact ⟨Nat.lt_succ_self w, hn⟩
      · exact (ih.queue w (Fifo.remaining_sublist.subset hw)).imp_left Nat.lt_succ_of_lt
    · rcases wheel_next hw with ⟨rfl, ha⟩ | ⟨hw, -⟩
      · exact ⟨Nat.lt_succ_self w, ha⟩
      · exact (ih.wheel x w hw).imp_left Nat.lt_succ_of_lt

theorem source_eq_some (h : source u n = some w) :
    w ∈ (stamps u n).queue.contents ∨ ∃ x, (stamps u n).wheel x = some w := by
  rw [source] at h
  split at h
  case isFalse => exact absurd h (Option.some_ne_none w).symm
  case isTrue =>
    split at h
    case isTrue => exact .inr ⟨_, h⟩
    case isFalse => exact .inl (List.mem_of_head? h)

theorem source_past (h : source u n = some w) : w < n ∧ Enters u w := by
  rcases source_eq_some h with h | ⟨x, h⟩
  · exact ((past_stamps u n).queue w h).imp_right .inl
  · exact ((past_stamps u n).wheel x w h).imp_right fun ha ↦ .inr ha.1

theorem not_arms_of_hpDin {s : State} {i : Input} (h : hpDin i ≠ none) : ¬s.arms i = true := by
  intro ha
  simp only [State.arms, Bool.and_eq_true] at ha
  refine h ?_
  rw [hpDin, ha.2, Bool.not_true, Bool.and_false]
  rfl

theorem queue_increasing (u : ℕ → Input) (n : ℕ) :
    (stamps u n).queue.contents.Pairwise (· < ·) := by
  induction n with
  | zero => exact List.Pairwise.nil
  | succ n ih =>
    have hlast : ∀ w ∈ ((stamps u n).queue.pushed 32 ((hpDin (u n)).map fun _ ↦ n)).toList, w = n := by
      intro w hw
      have hn := Option.mem_toList.mp hw
      rw [Fifo.pushed] at hn
      split at hn
      case isTrue => exact absurd hn (Option.not_mem_none w)
      case isFalse =>
        obtain ⟨e, -, rfl⟩ := Option.map_eq_some_iff.mp hn
        rfl
    refine List.pairwise_append.mpr ⟨ih.sublist Fifo.remaining_sublist, ?_, fun v hv w hw ↦ ?_⟩
    · cases (stamps u n).queue.pushed 32 ((hpDin (u n)).map fun _ ↦ n) with
      | none => exact List.Pairwise.nil
      | some w => exact List.pairwise_singleton _ w
    · rw [hlast w hw]
      exact ((past_stamps u n).queue v (Fifo.remaining_sublist.subset hv)).1

theorem grantHp_eq {s : State} {i : Input} (h : s.tcbAddrOutValid i = true) :
    (s.arbiter i).grantHp = !(s.arbiter i).grantLp := by
  revert h
  rw [State.tcbAddrOutValid, State.arbiter]
  cases i.txDatapathReady <;> cases s.overQuota <;> cases s.timerWheelVal <;> cases s.hpValid <;> simp

theorem pops_of_source (hr : (u n).txDatapathReady = true) (h : source u n = some w)
    (hq : hpDin (u w) ≠ none) : (stamps u n).queue.contents.head? = some w ∧
      (circuit.run u n).pops (u n) = true := by
  rw [source, Option.ite_none_right_eq_some] at h
  obtain ⟨ho, hw⟩ := h
  split at hw
  case isTrue => exact absurd ((past_stamps u n).wheel _ w hw).2.1 (not_arms_of_hpDin hq)
  case isFalse hlp =>
    refine ⟨hw, ?_⟩
    rw [State.pops, grantHp_eq ho, Bool.eq_false_iff.mpr hlp, hr]
    rfl

theorem source_once {m : ℕ} (hr : (u n).txDatapathReady = true) (h : source u n = some w)
    (hq : hpDin (u w) ≠ none) (hnm : n < m) : source u m ≠ some w := by
  have hgone : w ∉ (stamps u m).queue.contents := by
    induction m, hnm using Nat.le_induction with
    | base =>
      intro hw
      rcases queue_next hw with ⟨rfl, -⟩ | hw
      · exact Nat.lt_irrefl w (source_past h).1
      · obtain ⟨hhead, hpop⟩ := pops_of_source hr h hq
        have hinc := queue_increasing u n
        obtain ⟨l, hl⟩ := List.head?_eq_some_iff.mp hhead
        rw [Fifo.remaining, hpop, if_pos rfl, hl, List.tail_cons] at hw
        rw [hl] at hinc
        exact Nat.lt_irrefl w (List.rel_of_pairwise_cons hinc hw)
    | succ m hnm ih =>
      intro hw
      rcases queue_next hw with ⟨rfl, -⟩ | hw
      · exact absurd (source_past h).1 (by omega)
      · exact ih (Fifo.remaining_sublist.subset hw)
  intro hs
  rcases source_eq_some hs with hw | ⟨x, hw⟩
  · exact hgone hw
  · exact not_arms_of_hpDin hq ((past_stamps u m).wheel x w hw).2.1

theorem popped_stamps (u : ℕ → Input) (n : ℕ) (rd : Bool) : (circuit.run u n).priorityQueue.popped rd =
    ((stamps u n).queue.popped rd).map (written u) := by
  cases rd with
  | false => rfl
  | true => rw [Fifo.popped, Fifo.popped, if_pos rfl, if_pos rfl, queue_stamps, List.head?_map]

theorem source_of_popped
    (h : (stamps u n).queue.popped ((circuit.run u n).pops (u n)) = some w) : source u n = some w := by
  rw [Fifo.popped, Option.ite_none_right_eq_some, State.pops, Bool.and_eq_true] at h
  obtain ⟨⟨hg, hr⟩, hw⟩ := h
  have hv : (circuit.run u n).hpValid = true := by
    rw [State.hpValid, Bool.not_eq_true', ← Bool.not_eq_true, Fifo.empty_iff, queue_stamps,
      List.map_eq_nil_iff]
    exact fun hn ↦ Option.some_ne_none w (hw.symm.trans (by rw [hn, List.head?_nil]))
  have ho : (circuit.run u n).tcbAddrOutValid (u n) = true := by
    rw [State.tcbAddrOutValid, hv, hr, Bool.true_or, Bool.true_and]
  rw [source, if_pos ho, (Bool.not_eq_true' _).mp ((grantHp_eq ho).symm.trans hg), if_neg Bool.false_ne_true, hw]

theorem exists_source (hr : ∀ k, (u k).txDatapathReady = true)
    (h : (circuit.run u w).priorityQueue.pushed 32 (hpDin (u w)) ≠ none) :
    ∃ n, source u n = some w := by
  have hpush : (stamps u w).queue.pushed 32 ((hpDin (u w)).map fun _ ↦ w) = some w := by
    rw [Fifo.pushed, Fifo.full, queue_stamps, List.length_map] at h
    rw [Fifo.pushed, Fifo.full]
    split at h
    case isTrue => exact absurd rfl h
    case isFalse hf =>
      obtain ⟨e, he⟩ := Option.ne_none_iff_exists'.mp h
      rw [if_neg hf, he]
      rfl
  have hmoves : ∀ n, (stamps u n).queue.contents ≠ [] → ∃ k, n ≤ k ∧
      ((stamps u k).queue.popped ((circuit.run u k).pops (u k))).isSome = true := by
    intro n hn
    have hn' : (circuit.run u n).priorityQueue.contents ≠ [] := by
      rw [queue_stamps]
      exact fun he ↦ hn (List.map_eq_nil_iff.mp he)
    obtain ⟨k, hk, hp⟩ := queue_moves hr n hn'
    rw [popped_stamps, Option.isSome_map] at hp
    exact ⟨k, hk, hp⟩
  obtain ⟨m, hm⟩ := Fifo.delivered (q := fun n ↦ (stamps u n).queue) rfl (fun _ ↦ rfl) hmoves (w + 1)
  have hmem := hm.subset (mem_collect.mpr ⟨w, Nat.lt_succ_self w, hpush⟩)
  obtain ⟨n, -, hn⟩ := mem_collect.mp hmem
  exact ⟨n, source_of_popped hn⟩

end

end QdmaTrafficGen.Rto
