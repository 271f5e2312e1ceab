import Mathlib.Data.List.Basic
import Mathlib.Data.Nat.Count
import Mathlib.Algebra.Order.Group.Nat
import Mathlib.Tactic.Common

namespace Clocked

variable {ι σ α β : Type*}

/-- A clocked circuit: its registers after reset, and its registers one clock edge later. -/
structure Circuit (ι σ : Type*) where
  reset : σ
  next : σ → ι → σ

namespace Circuit

variable (C : Circuit ι σ) (u : ℕ → ι)

/-- The registers during cycle `n` of the run that the input stream `u` drives from reset. -/
def run : ℕ → σ
  | 0 => C.reset
  | n + 1 => C.next (run n) (u n)

@[simp] theorem run_zero : C.run u 0 = C.reset := rfl

theorem run_succ (n : ℕ) : C.run u (n + 1) = C.next (C.run u n) (u n) := rfl

variable {C u}

theorem invariant {I : σ → Prop} (h₀ : I C.reset) (hs : ∀ s i, I s → I (C.next s i)) (n : ℕ) :
    I (C.run u n) := by
  induction n with
  | zero => exact h₀
  | succ n ih => exact hs _ _ ih

theorem persists {I : σ → Prop} {m n : ℕ} (hmn : m ≤ n) (hm : I (C.run u m))
    (hs : ∀ k, m ≤ k → k < n → I (C.run u k) → I (C.run u (k + 1))) : I (C.run u n) := by
  induction n, hmn using Nat.le_induction with
  | base => exact hm
  | succ n hmn ih => exact hs n hmn (by omega) (ih fun k hk hkn ↦ hs k hk (by omega))

end Circuit

/-- If each cycle, as long as `I` holds, meets `P` and keeps `I` exactly when it meets `R`, then
all cycles do so as long as all of them meet `R`. -/
theorem stepwise_and_iff {I P R : ℕ → Prop} (h₀ : I 0)
    (hs : ∀ n, I n → (P n ∧ I (n + 1) ↔ R n)) (n : ℕ) :
    ((∀ k < n, P k) ∧ ∀ k ≤ n, I k) ↔ ∀ k < n, R k := by
  constructor
  · rintro ⟨hP, hI⟩ k hk
    exact (hs k (hI k (by omega))).mp ⟨hP k hk, hI (k + 1) (by omega)⟩
  · intro h
    have hI : ∀ k ≤ n, I k := by
      intro k hk
      induction k with
      | zero => exact h₀
      | succ k ih => exact ((hs k (ih (by omega))).mpr (h k (by omega))).2
    exact ⟨fun k hk ↦ ((hs k (hI k (by omega))).mpr (h k hk)).1, hI⟩

theorem stepwise_iff {I R : ℕ → Prop} (h₀ : I 0) (hs : ∀ n, I n → (I (n + 1) ↔ R n)) (n : ℕ) :
    (∀ k ≤ n, I k) ↔ ∀ k < n, R k := by
  rw [← stepwise_and_iff (P := fun _ ↦ True) h₀ (by simpa using hs) n]
  simp

theorem count_le_of_spends {f : ℕ → ℕ} {p : ℕ → Prop} [DecidablePred p]
    (h : ∀ n, f (n + 1) + (if p n then 1 else 0) ≤ f n) (n : ℕ) : Nat.count p n ≤ f 0 := by
  have hsum : Nat.count p n + f n ≤ f 0 := by
    induction n with
    | zero => rw [Nat.count_zero, Nat.zero_add]
    | succ n ih =>
      have hn := h n
      rw [Nat.count_succ]
      omega
  omega

theorem exists_of_rank {r : ℕ → ℕ} {p : ℕ → Prop} (h : ∀ n, p n ∨ r (n + 1) < r n) : ∃ n, p n := by
  by_contra! hp
  have hr : ∀ n, r n + n ≤ r 0 := by
    intro n
    induction n with
    | zero => exact le_rfl
    | succ n ih =>
      have hn := (h n).resolve_left (hp n)
      omega
  have hlast := hr (r 0 + 1)
  omega

/-- After each occurrence the next one comes exactly `d` cycles later. -/
def Spaced (p : ℕ → Prop) (d : ℕ) : Prop :=
  ∀ n, p n → p (n + d) ∧ ∀ m, n < m → m < n + d → ¬p m

theorem Spaced.unique {p : ℕ → Prop} {c d n : ℕ} (hc : Spaced p c) (hd : Spaced p d) (hn : p n)
    (hc₀ : 0 < c) (hd₀ : 0 < d) : c = d := by
  rcases Nat.lt_trichotomy c d with h | h | h
  · exact absurd (hc n hn).1 ((hd n hn).2 _ (by omega) (by omega))
  · exact h
  · exact absurd (hd n hn).1 ((hc n hn).2 _ (by omega) (by omega))

/-- The events that a signal shows in the cycles before `n`, oldest first. -/
def collect (f : ℕ → Option α) : ℕ → List α
  | 0 => []
  | n + 1 => collect f n ++ (f n).toList

@[simp] theorem collect_zero (f : ℕ → Option α) : collect f 0 = [] := rfl

theorem collect_succ (f : ℕ → Option α) (n : ℕ) :
    collect f (n + 1) = collect f n ++ (f n).toList := rfl

theorem mem_collect {f : ℕ → Option α} {n : ℕ} {a : α} :
    a ∈ collect f n ↔ ∃ k < n, f k = some a := by
  induction n with
  | zero => simp
  | succ n ih =>
    rw [collect_succ, List.mem_append, ih, Option.mem_toList]
    constructor
    · rintro (⟨k, hk, ha⟩ | ha)
      · exact ⟨k, by omega, ha⟩
      · exact ⟨n, by omega, ha⟩
    · rintro ⟨k, hk, ha⟩
      rcases Nat.lt_succ_iff_lt_or_eq.mp hk with hk | rfl
      · exact .inl ⟨k, hk, ha⟩
      · exact .inr ha

theorem prefix_collect_of_le (f : ℕ → Option α) {m n : ℕ} (h : m ≤ n) :
    collect f m <+: collect f n := by
  induction n, h using Nat.le_induction with
  | base => exact List.prefix_rfl
  | succ n _ ih => exact ih.trans (List.prefix_append _ _)

theorem collect_shift {f : ℕ → Option α} {d : ℕ} (hd : ∀ k < d, f k = none) (n : ℕ) :
    collect f (n + d) = collect (fun k ↦ f (k + d)) n := by
  have hsilent : ∀ m ≤ d, collect f m = [] := by
    intro m hm
    induction m with
    | zero => rfl
    | succ m ih => rw [collect_succ, ih (by omega), hd m (by omega)]; rfl
  induction n with
  | zero => rw [Nat.zero_add, hsilent d le_rfl, collect_zero]
  | succ n ih => rw [Nat.add_right_comm, collect_succ, ih, collect_succ]

theorem collect_filter (f : ℕ → Option α) (p : α → Bool) (n : ℕ) :
    (collect f n).filter p = collect (fun k ↦ (f k).filter p) n := by
  induction n with
  | zero => rfl
  | succ n ih =>
    rw [collect_succ, List.filter_append, ih, collect_succ]
    congr 1
    cases f n with
    | none => rfl
    | some a => cases h : p a <;> simp [Option.filter, h]

end Clocked
