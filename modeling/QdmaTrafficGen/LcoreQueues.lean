import Mathlib.Algebra.Order.Group.Nat
import Mathlib.Data.List.Nodup
import Mathlib.Logic.Function.Basic
import QdmaTrafficGen.Sequential.Loop

namespace QdmaTrafficGen.TestApp

open Sequential

structure Dealing where
  lcoreQMap : ℕ → ℕ → ℤ
  qCount : ℤ

def Dealing.put (s : Dealing) (idx x : ℕ) (q : ℤ) : Dealing :=
  { s with lcoreQMap := Function.update s.lcoreQMap idx (Function.update (s.lcoreQMap idx) x q) }

variable (numQueues qbase : ℕ)

def Dealing.next (s : Dealing) (x idx : ℕ) : Dealing :=
  if s.qCount < numQueues + qbase then { s.put idx x s.qCount with qCount := s.qCount + 1 }
  else s.put idx x (-1)

def qPerCore (lcores : ℕ) : ℕ :=
  if numQueues % lcores ≠ 0 then numQueues / lcores + 1 else numQueues / lcores

/-- The lists after their allocation: all but the last entry hold what was in the memory before. -/
def allocated (memory : ℕ → ℕ → ℤ) (qPerCore : ℕ) : ℕ → ℕ → ℤ :=
  fun i x ↦ if x = qPerCore then -1 else memory i x

def dealtMap (lcores : ℕ) (memory : ℕ → ℕ → ℤ) : ℕ → ℕ → ℤ :=
  let start : Dealing := ⟨allocated memory (qPerCore numQueues lcores), qbase⟩
  ((List.range (qPerCore numQueues lcores)).foldl (fun s x ↦
    (List.range lcores).foldl (fun s idx ↦ s.next numQueues qbase x idx) s) start).lcoreQMap

def dealtList (lcores : ℕ) (memory : ℕ → ℕ → ℤ) (i : ℕ) : List ℤ :=
  (List.range (qPerCore numQueues lcores + 1)).map (dealtMap numQueues qbase lcores memory i)

def testLists (numLcores : ℕ) (memory : ℕ → ℕ → ℤ) : ℕ → List ℤ :=
  dealtList numQueues qbase numLcores memory

def testRRLists (numLcores : ℕ) (memory : ℕ → ℕ → ℤ) : ℕ → List ℤ :=
  dealtList numQueues qbase (numLcores - 1) memory

/-- The queues that `recv_pkt_single_core` polls with its list. -/
def polled (list : List ℤ) : List ℤ := list.takeWhile (· ≠ -1)

/-- Every queue is in the list of exactly one of the workers, the lcores with ids below `workers`,
which polls it, and none of them reads beyond its list. -/
structure PolledOnce (workers : ℕ) (lists : ℕ → List ℤ) : Prop where
  terminated : ∀ i < workers, -1 ∈ lists i
  listed : ∀ q : ℤ, qbase ≤ q → q < qbase + numQueues →
    ((List.range workers).flatMap lists).count q = 1
  once : ∀ q : ℤ, qbase ≤ q → q < qbase + numQueues →
    ((List.range workers).flatMap fun i ↦ polled (lists i)).count q = 1

def dealt (k : ℕ) : ℤ := if k < numQueues then qbase + k else -1

section

variable {numQueues qbase} {lcores i x : ℕ} {memory : ℕ → ℕ → ℤ}

theorem put_apply (s : Dealing) (j y : ℕ) (q : ℤ) :
    (s.put j y q).lcoreQMap i x = if i = j ∧ x = y then q else s.lcoreQMap i x := by
  simp only [Dealing.put, Function.update_apply]
  split_ifs
  all_goals simp_all

theorem next_spec {s : Dealing} {k : ℕ} (h : s.qCount = qbase + min k numQueues) (y j : ℕ) :
    (s.next numQueues qbase y j).qCount = qbase + min (k + 1) numQueues ∧
      (s.next numQueues qbase y j).lcoreQMap i x =
        if i = j ∧ x = y then dealt numQueues qbase k else s.lcoreQMap i x := by
  rw [Dealing.next, dealt]
  by_cases hk : k < numQueues
  · rw [if_pos (by omega), if_pos hk]
    have hq : s.qCount = qbase + k := by omega
    refine ⟨show s.qCount + 1 = _ by omega, ?_⟩
    rw [← hq]
    exact put_apply s j y _
  · rw [if_neg (by omega), if_neg hk]
    exact ⟨show s.qCount = _ by omega, put_apply s j y _⟩

theorem position_iff (hi : i < lcores) {k : ℕ} :
    x * lcores + i = k ↔ i = k % lcores ∧ x = k / lcores := by
  constructor
  · rintro rfl
    rw [Nat.mul_comm, Nat.mul_add_mod, Nat.mul_add_div (by omega), Nat.mod_eq_of_lt hi,
      Nat.div_eq_of_lt hi, Nat.add_zero]
    exact ⟨rfl, rfl⟩
  · rintro ⟨rfl, rfl⟩
    exact Nat.div_add_mod' k lcores

theorem foldl_next {start : Dealing} (hs : start.qCount = qbase) (k : ℕ) :
    let s := (List.range k).foldl
      (fun s j ↦ Dealing.next numQueues qbase s (j / lcores) (j % lcores)) start
    s.qCount = qbase + min k numQueues ∧ ∀ i x, i < lcores → s.lcoreQMap i x =
      if x * lcores + i < k then dealt numQueues qbase (x * lcores + i) else start.lcoreQMap i x := by
  induction k with
  | zero => exact ⟨by simpa using hs, fun i x _ ↦ rfl⟩
  | succ k ih =>
    obtain ⟨hq, hmap⟩ := ih
    rw [List.range_succ, List.foldl_concat]
    refine ⟨(next_spec (i := 0) (x := 0) hq _ _).1, fun i x hi ↦ ?_⟩
    rw [(next_spec hq _ _).2, hmap i x hi]
    simp only [← position_iff hi]
    rcases Nat.lt_trichotomy (x * lcores + i) k with h | h | h
    · rw [if_neg h.ne, if_pos h, if_pos (by omega)]
    · rw [if_pos h, if_pos (by omega), h]
    · rw [if_neg h.ne', if_neg (by omega), if_neg (by omega)]

theorem numQueues_le (numQueues : ℕ) (hl : 0 < lcores) :
    numQueues ≤ qPerCore numQueues lcores * lcores := by
  have hdiv := Nat.div_add_mod' numQueues lcores
  have hlt := Nat.mod_lt numQueues hl
  unfold qPerCore
  split_ifs with h
  · rw [Nat.succ_mul]
    omega
  · omega

theorem dealtMap_apply (hi : i < lcores) (hx : x ≤ qPerCore numQueues lcores) :
    dealtMap numQueues qbase lcores memory i x = dealt numQueues qbase (x * lcores + i) := by
  have hl : 0 < lcores := by omega
  rw [dealtMap, foldl_nested, (foldl_next rfl _).2 i x hi]
  rcases Nat.lt_or_ge x (qPerCore numQueues lcores) with h | h
  · have hle := Nat.mul_le_mul_right lcores h
    rw [Nat.succ_mul] at hle
    rw [if_pos (by omega)]
  · obtain rfl : x = qPerCore numQueues lcores := by omega
    have hle := numQueues_le numQueues hl
    rw [if_neg (by omega), dealt, if_neg (by omega)]
    exact if_pos rfl

theorem lt_length_iff (hi : i < lcores) :
    x < (numQueues + (lcores - 1) - i) / lcores ↔ x * lcores + i < numQueues := by
  rw [← Nat.succ_le_iff, Nat.le_div_iff_mul_le (by omega), Nat.succ_mul]
  omega

theorem dealtList_eq (hi : i < lcores) : dealtList numQueues qbase lcores memory i =
    (List.range (qPerCore numQueues lcores + 1)).map fun x ↦
      dealt numQueues qbase (x * lcores + i) :=
  List.map_congr_left fun _ hx ↦ dealtMap_apply hi (Nat.le_of_lt_succ (List.mem_range.mp hx))

theorem length_le (hi : i < lcores) :
    (numQueues + (lcores - 1) - i) / lcores ≤ qPerCore numQueues lcores := by
  have hle := numQueues_le numQueues (show 0 < lcores by omega)
  rw [← not_lt, lt_length_iff hi]
  omega

theorem polled_dealtList (hi : i < lcores) : polled (dealtList numQueues qbase lcores memory i) =
    (List.range ((numQueues + (lcores - 1) - i) / lcores)).map fun x ↦
      dealt numQueues qbase (x * lcores + i) := by
  rw [dealtList_eq hi, polled, List.takeWhile_map,
    takeWhile_range (Nat.lt_succ_of_le (length_le hi))]
  · intro x hx
    rw [Function.comp_apply, dealt, if_pos ((lt_length_iff hi).mp hx), decide_eq_true_eq]
    omega
  · rw [Function.comp_apply, dealt, if_neg ((lt_length_iff hi).not.mp (lt_irrefl _))]
    rfl

theorem dealt_eq_iff {j k : ℕ} (hk : k < numQueues) :
    dealt numQueues qbase j = (qbase + k : ℕ) ↔ j = k := by
  rw [dealt]
  by_cases hj : j < numQueues
  · rw [if_pos hj]
    omega
  · rw [if_neg hj]
    exact iff_of_false (by omega) (by omega)

theorem count_dealt (hi : i < lcores) {k n : ℕ} (hk : k < numQueues)
    (hn : (numQueues + (lcores - 1) - i) / lcores ≤ n) :
    ((List.range n).map fun x ↦ dealt numQueues qbase (x * lcores + i)).count
      ((qbase + k : ℕ) : ℤ) = if i = k % lcores then 1 else 0 := by
  rw [List.count_eq_countP, List.countP_map]
  split_ifs with h
  · have hpos : k / lcores * lcores + i = k := (position_iff hi).mpr ⟨h, rfl⟩
    have hlt : k / lcores < n := ((lt_length_iff hi).mpr (by omega)).trans_le hn
    have hcount : (List.range n).count (k / lcores) = 1 := by rw [List.count_range, if_pos hlt]
    rw [← hcount, List.count_eq_countP]
    refine List.countP_congr fun x _ ↦ ?_
    rw [Function.comp_apply, beq_iff_eq, beq_iff_eq, dealt_eq_iff hk, position_iff hi,
      and_iff_right h]
  · refine List.countP_eq_zero.mpr fun x _ hx ↦ h ?_
    rw [Function.comp_apply, beq_iff_eq, dealt_eq_iff hk] at hx
    exact ((position_iff hi).mp hx).1

theorem count_workers {lists : ℕ → List ℤ} {q : ℤ} {workers r : ℕ}
    (h : ∀ i < workers, (lists i).count q = if i = r then 1 else 0) :
    ((List.range workers).flatMap lists).count q = if r < workers then 1 else 0 := by
  induction workers with
  | zero => rfl
  | succ w ih =>
    rw [List.range_succ, List.flatMap_append, List.flatMap_singleton, List.count_append,
      ih fun i hi ↦ h i (by omega), h w (by omega)]
    split_ifs
    all_goals omega

theorem count_listed {workers : ℕ} (hw : workers ≤ lcores) {k : ℕ} (hk : k < numQueues) :
    ((List.range workers).flatMap (dealtList numQueues qbase lcores memory)).count
      ((qbase + k : ℕ) : ℤ) = if k % lcores < workers then 1 else 0 := by
  refine count_workers fun i hi ↦ ?_
  have hi : i < lcores := by omega
  rw [dealtList_eq hi]
  exact count_dealt hi hk ((length_le hi).trans (Nat.le_succ _))

theorem count_polled {workers : ℕ} (hw : workers ≤ lcores) {k : ℕ} (hk : k < numQueues) :
    ((List.range workers).flatMap fun i ↦
      polled (dealtList numQueues qbase lcores memory i)).count ((qbase + k : ℕ) : ℤ) =
      if k % lcores < workers then 1 else 0 := by
  refine count_workers fun i hi ↦ ?_
  have hi : i < lcores := by omega
  rw [polled_dealtList hi]
  exact count_dealt hi hk le_rfl

theorem neg_one_mem (hi : i < lcores) : -1 ∈ dealtList numQueues qbase lcores memory i := by
  have hle := numQueues_le numQueues (show 0 < lcores by omega)
  refine List.mem_map.mpr ⟨_, List.mem_range.mpr (Nat.lt_succ_self _), ?_⟩
  rw [dealtMap_apply hi le_rfl, dealt, if_neg (by omega)]

theorem polledOnce_iff {workers : ℕ} (hw : workers ≤ lcores) :
    PolledOnce numQueues qbase workers (dealtList numQueues qbase lcores memory) ↔
      ∀ k < numQueues, k % lcores < workers := by
  constructor
  · intro h k hk
    by_contra hno
    have hone := h.once (qbase + k : ℕ) (by omega) (by omega)
    rw [count_polled hw hk, if_neg hno] at hone
    exact Nat.zero_ne_one hone
  · intro h
    have hnat : ∀ q : ℤ, qbase ≤ q → q < qbase + numQueues →
        ∃ k < numQueues, q = (qbase + k : ℕ) :=
      fun q hlo hhi ↦ ⟨(q - qbase).toNat, by omega, by omega⟩
    refine ⟨fun i hi ↦ neg_one_mem (by omega), fun q hlo hhi ↦ ?_, fun q hlo hhi ↦ ?_⟩
    · obtain ⟨k, hk, rfl⟩ := hnat q hlo hhi
      rw [count_listed hw hk, if_pos (h k hk)]
    · obtain ⟨k, hk, rfl⟩ := hnat q hlo hhi
      rw [count_polled hw hk, if_pos (h k hk)]

end

/-- `test_RR.c` shares out the queues among its workers, and `test.c` does so if there are not more
queues than workers. -/
theorem polledOnce {numLcores : ℕ} (hl : 2 ≤ numLcores) (numQueues qbase : ℕ)
    (memory : ℕ → ℕ → ℤ) :
    PolledOnce numQueues qbase (numLcores - 1) (testRRLists numQueues qbase numLcores memory) ∧
    (PolledOnce numQueues qbase (numLcores - 1) (testLists numQueues qbase numLcores memory) ↔
      numQueues ≤ numLcores - 1) := by
  constructor
  · exact (polledOnce_iff le_rfl).mpr fun k _ ↦ Nat.mod_lt k (by omega)
  · rw [testLists, polledOnce_iff (Nat.sub_le _ _)]
    constructor
    · intro h
      by_contra! hlt
      have hlast := h (numLcores - 1) hlt
      rw [Nat.mod_eq_of_lt (by omega)] at hlast
      omega
    · intro h k hk
      rw [Nat.mod_eq_of_lt (by omega)]
      omega

theorem polledOnce_twelve : PolledOnce 11 0 11 (testRRLists 11 0 12 fun _ _ ↦ 0) ∧
    PolledOnce 11 0 11 (testLists 11 0 12 fun _ _ ↦ 0) :=
  (polledOnce (by decide : 2 ≤ 12) 11 0 fun _ _ ↦ 0).imp_right fun h ↦ h.mpr le_rfl

/-- The second of two queues is dealt to the main lcore. -/
theorem not_polledOnce : ¬∀ numQueues numLcores qbase memory, 1 ≤ numQueues → 2 ≤ numLcores →
    PolledOnce numQueues qbase (numLcores - 1) (testLists numQueues qbase numLcores memory) ∧
    PolledOnce numQueues qbase (numLcores - 1) (testRRLists numQueues qbase numLcores memory) := by
  intro h
  have hone := (h 2 2 0 (fun _ _ ↦ 0) (by decide) (by decide)).1.once 1 (by decide) (by decide)
  exact absurd hone (by decide)

end QdmaTrafficGen.TestApp
