import Mathlib.Logic.Function.Basic
import Mathlib.Order.Nat
import Mathlib.Tactic.Common

open Function

namespace Sequential.Blocks

variable {runs : ℕ → Option ℕ} {total s l a k n : ℕ}

/-- Block `k` belongs to one of the runs of blocks, `runs s` being the length of the run that
starts with block `s`. -/
def Covered (runs : ℕ → Option ℕ) (k : ℕ) : Prop := ∃ s l, runs s = some l ∧ s ≤ k ∧ k < s + l

/-- Block `k` is not strictly inside a run. -/
def Boundary (runs : ℕ → Option ℕ) (k : ℕ) : Prop := ∀ s l, runs s = some l → s < k → s + l ≤ k

/-- The runs are not empty, lie in a row of `total` blocks and do not overlap. -/
structure Placed (runs : ℕ → Option ℕ) (total : ℕ) : Prop where
  bounds : ∀ s l, runs s = some l → 0 < l ∧ s + l ≤ total
  boundary : ∀ s l, runs s = some l → Boundary runs s

/-- The `n` blocks from `a` on belong to no run. -/
def Vacant (runs : ℕ → Option ℕ) (a n : ℕ) : Prop := ∀ k, a ≤ k → k < a + n → ¬Covered runs k

/-- At block `a` or later, `n` blocks next to each other belong to no run. -/
def Room (runs : ℕ → Option ℕ) (total n a : ℕ) : Prop :=
  ∃ w, a ≤ w ∧ w + n ≤ total ∧ Vacant runs w n

theorem Boundary.vacant (h : Boundary runs a) (hn : ∀ k, a ≤ k → k < a + n → runs k = none) :
    Vacant runs a n := by
  rintro k hak hkn ⟨s, l, hs, hsk, hks⟩
  rcases Nat.lt_or_ge s a with hsa | hsa
  · have := h s l hs hsa
    omega
  · rw [hn s hsa (by omega)] at hs
    nomatch hs

theorem boundary_zero : Boundary runs 0 := by
  intro s l _ h
  omega

theorem Placed.boundary_end (h : Placed runs total) (hs : runs s = some l) :
    Boundary runs (s + l) := by
  intro t m ht htl
  rcases Nat.lt_trichotomy s t with hst | rfl | hts
  · have := h.boundary t m ht s l hs hst
    omega
  · rw [hs, Option.some.injEq] at ht
    omega
  · have := h.boundary s l hs t m ht hts
    omega

theorem Vacant.disjoint (h : Vacant runs a n) (hs : runs s = some l) (hl : 0 < l) (hn : 0 < n) :
    s + l ≤ a ∨ a + n ≤ s := by
  by_contra! hcon
  rcases Nat.lt_or_ge s a with hsa | hsa
  · exact h a le_rfl (by omega) ⟨s, l, hs, by omega, by omega⟩
  · exact h s hsa (by omega) ⟨s, l, hs, le_rfl, by omega⟩

theorem Placed.add (h : Placed runs total) (hl : 0 < l) (hs : s + l ≤ total)
    (hv : Vacant runs s l) : Placed (update runs s (some l)) total := by
  have hold : ∀ t m, runs t = some m → t + m ≤ s ∨ s + l ≤ t := by
    intro t m ht
    exact hv.disjoint ht (h.bounds t m ht).1 hl
  constructor
  · intro t m ht
    by_cases hts : t = s
    · subst hts
      rw [update_self, Option.some.injEq] at ht
      omega
    · rw [update_of_ne hts] at ht
      exact h.bounds t m ht
  · intro t m ht t' m' ht' hlt
    by_cases hts : t = s <;> by_cases hts' : t' = s
    · omega
    · subst hts
      rw [update_of_ne hts'] at ht'
      rcases hold t' m' ht' with h | h <;> omega
    · subst hts'
      rw [update_self, Option.some.injEq] at ht'
      rw [update_of_ne hts] at ht
      have hm := (h.bounds t m ht).1
      rcases hold t m ht with h | h <;> omega
    · rw [update_of_ne hts] at ht
      rw [update_of_ne hts'] at ht'
      exact h.boundary t m ht t' m' ht' hlt

theorem eq_some_of_remove (h : update runs s none k = some l) : k ≠ s ∧ runs k = some l := by
  by_cases hk : k = s
  · subst hk
    simp at h
  · exact ⟨hk, by rwa [update_of_ne hk] at h⟩

theorem Boundary.remove (h : Boundary runs k) : Boundary (update runs s none) k :=
  fun t m ht htk ↦ h t m (eq_some_of_remove ht).2 htk

theorem Placed.remove (h : Placed runs total) : Placed (update runs s none) total :=
  ⟨fun t m ht ↦ h.bounds t m (eq_some_of_remove ht).2,
    fun t m ht ↦ (h.boundary t m (eq_some_of_remove ht).2).remove⟩

theorem Room.mono {b : ℕ} (h : Room runs total n a) (hb : b ≤ a) : Room runs total n b := by
  obtain ⟨w, haw, hw⟩ := h
  exact ⟨w, Nat.le_trans hb haw, hw⟩

theorem Room.past (h : Room runs total n a) (hs : runs s = some l) (hl : 0 < l) (has : a ≤ s)
    (hsn : s < a + n) : Room runs total n (s + l) := by
  obtain ⟨w, haw, hwt, hw⟩ := h
  refine ⟨w, ?_, hwt, hw⟩
  rcases hw.disjoint hs hl (by omega) with h | h <;> omega

theorem not_room (h : total < a + n) : ¬Room runs total n a := by
  rintro ⟨w, haw, hwt, -⟩
  omega

end Sequential.Blocks
