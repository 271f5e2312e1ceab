import QdmaTrafficGen.Clocked.Run

namespace Clocked

variable {α : Type*}

/-- A synchronous first-word-fall-through queue. `last` is the word that the output keeps
showing while the queue is empty. -/
structure Fifo (α : Type*) where
  contents : List α
  last : α

namespace Fifo

variable (q : Fifo α) (depth : ℕ) (wr : Option α) (rd : Bool)

def reset [Inhabited α] : Fifo α := ⟨[], default⟩

def empty : Bool := q.contents.isEmpty

def full : Bool := depth ≤ q.contents.length

def dout : α := q.contents.head?.getD q.last

def popped : Option α := if rd then q.contents.head? else none

/-- The word that enters the queue in this cycle; a full queue drops it. -/
def pushed : Option α := if q.full depth then none else wr

def remaining : List α := if rd then q.contents.tail else q.contents

def next : Fifo α where
  contents := (if rd then q.contents.tail else q.contents) ++ (q.pushed depth wr).toList
  last := (q.popped rd).getD q.last

variable {q depth wr rd}

@[simp] theorem reset_contents [Inhabited α] : (reset : Fifo α).contents = [] := rfl

theorem empty_iff : q.empty = true ↔ q.contents = [] := List.isEmpty_iff

theorem dout_of_nil (h : q.contents = []) : q.dout = q.last := by
  simp only [dout, h, List.head?_nil, Option.getD_none]

theorem head_eq_dout (h : q.contents ≠ []) : q.contents.head? = some q.dout := by
  obtain ⟨a, l, hl⟩ := List.exists_cons_of_ne_nil h
  simp only [dout, hl, List.head?_cons, Option.getD_some]

theorem popped_of_not_empty (h : q.contents ≠ []) : q.popped true = some q.dout := by
  simp only [popped, if_true, head_eq_dout h]

theorem next_contents : q.contents ++ (q.pushed depth wr).toList =
    (q.popped rd).toList ++ (q.next depth wr rd).contents := by
  cases rd
  · simp [popped, next]
  · cases h : q.contents <;> simp [popped, next, h]

theorem mem_next {a : α} (h : a ∈ (q.next depth wr rd).contents) :
    a ∈ q.contents ∨ wr = some a := by
  rcases List.mem_append.mp h with h | h
  · left
    cases rd
    · exact h
    · exact List.mem_of_mem_tail h
  · right
    simp only [pushed] at h
    split at h
    · simp at h
    · simpa using h

theorem remaining_sublist : List.Sublist (q.remaining rd) q.contents := by
  rw [remaining]
  split
  case isTrue => exact List.tail_sublist _
  case isFalse => exact List.Sublist.refl _

theorem remaining_map {β : Type*} {p : Fifo β} {f : α → β} (h : p.contents = q.contents.map f) :
    p.remaining rd = (q.remaining rd).map f := by
  rw [remaining, remaining, h]
  split
  case isTrue => exact List.map_tail.symm
  case isFalse => rfl

theorem next_none : (q.next depth none rd).contents = if rd then q.contents.tail else q.contents := by
  rw [next, pushed, ite_self, Option.toList_none, List.append_nil]

theorem next_none_of_nil (h : q.contents = []) : (q.next depth none rd).contents = [] := by
  rw [next_none, h, List.tail_nil, ite_self]

theorem contents_map {β : Type*} {p : Fifo β} {f : α → β} (h : p.contents = q.contents.map f) :
    (p.next depth (wr.map f) rd).contents = (q.next depth wr rd).contents.map f := by
  have hfull : p.full depth = q.full depth := by rw [full, full, h, List.length_map]
  have hpush : (p.pushed depth (wr.map f)).toList = (q.pushed depth wr).toList.map f := by
    rw [pushed, pushed, hfull]
    split
    case isTrue => rfl
    case isFalse => cases wr <;> rfl
  rw [next, next, List.map_append, hpush, h]
  cases rd
  · rfl
  · rw [if_pos rfl, if_pos rfl, List.map_tail]

/-- Over a run, the words read and then the words still queued are the words written. -/
theorem conservation {q : ℕ → Fifo α} {wr : ℕ → Option α} {rd : ℕ → Bool}
    (h₀ : (q 0).contents = []) (hq : ∀ n, q (n + 1) = (q n).next depth (wr n) (rd n)) (n : ℕ) :
    collect (fun k ↦ (q k).popped (rd k)) n ++ (q n).contents =
      collect (fun k ↦ (q k).pushed depth (wr k)) n := by
  induction n with
  | zero => simpa using h₀
  | succ n ih =>
    rw [collect_succ, collect_succ, ← ih, hq, List.append_assoc, List.append_assoc, next_contents]

theorem delivered {q : ℕ → Fifo α} {wr : ℕ → Option α} {rd : ℕ → Bool}
    (h₀ : (q 0).contents = []) (hq : ∀ n, q (n + 1) = (q n).next depth (wr n) (rd n))
    (hrd : ∀ n, (q n).contents ≠ [] → ∃ k, n ≤ k ∧ ((q k).popped (rd k)).isSome = true) (n : ℕ) :
    ∃ m, collect (fun k ↦ (q k).pushed depth (wr k)) n <+:
      collect (fun k ↦ (q k).popped (rd k)) m := by
  have hcons := conservation h₀ hq
  have hreach : ∀ l, l ≤ (collect (fun k ↦ (q k).pushed depth (wr k)) n).length →
      ∃ m, n ≤ m ∧ l ≤ (collect (fun k ↦ (q k).popped (rd k)) m).length := by
    intro l hl
    induction l with
    | zero => exact ⟨n, le_rfl, Nat.zero_le _⟩
    | succ l ih =>
      obtain ⟨m, hnm, hm⟩ := ih (by omega)
      by_cases hlt : l < (collect (fun k ↦ (q k).popped (rd k)) m).length
      · exact ⟨m, hnm, hlt⟩
      · have hlen := congrArg List.length (hcons m)
        have hmono := (prefix_collect_of_le (fun k ↦ (q k).pushed depth (wr k)) hnm).length_le
        rw [List.length_append] at hlen
        have hne : (q m).contents ≠ [] := List.ne_nil_of_length_pos (by omega)
        obtain ⟨k, hmk, hk⟩ := hrd m hne
        refine ⟨k + 1, by omega, ?_⟩
        have hmk' := (prefix_collect_of_le (fun k ↦ (q k).popped (rd k)) hmk).length_le
        rw [collect_succ, List.length_append, Option.length_toList, if_pos hk]
        omega
  obtain ⟨m, hnm, hm⟩ := hreach _ le_rfl
  refine ⟨m, List.prefix_of_prefix_length_le (prefix_collect_of_le _ hnm) ?_ hm⟩
  rw [← hcons m]
  exact List.prefix_append _ _

end Fifo

end Clocked
