import Mathlib.Data.Int.Notation
import Mathlib.Order.Interval.Set.Basic
import Mathlib.Tactic.Common

namespace Sequential

variable {σ : Type*}

/-- `for (i = 0; i < n; i++) f(i);` -/
def each (f : ℕ → σ → σ) : ℕ → σ → σ
  | 0, s => s
  | n + 1, s => f n (each f n s)

/-- `while (n--) f(n);` -/
def rollback (f : ℕ → σ → σ) : ℕ → σ → σ
  | 0, s => s
  | n + 1, s => rollback f n (f n s)

/-- Sets up the parts before `n` in turn. An error ends this, is returned, and the parts that were
set up before it are freed again, the last one first. -/
def setUpAll (setUp : ℕ → σ → ℤ × σ) (free : ℕ → σ → σ) : ℕ → σ → ℤ × σ
  | 0, s => (0, s)
  | n + 1, s =>
    let r := setUpAll setUp free n s
    if r.1 ≠ 0 then r
    else
      let r := setUp n r.2
      if r.1 ≠ 0 then (r.1, rollback free n r.2) else r

variable {f free : ℕ → σ → σ} {setUp : ℕ → σ → ℤ × σ} {P : ℕ → σ → Prop} {Q : Set ℕ → σ → Prop}
  {n : ℕ} {s : σ}

theorem each_rule (h₀ : P 0 s) (hs : ∀ i < n, ∀ t, P i t → P (i + 1) (f i t)) : P n (each f n s) := by
  induction n with
  | zero => exact h₀
  | succ n ih => exact hs n (by omega) _ (ih fun i hi ↦ hs i (by omega))

theorem each_invariant {I : σ → Prop} (h₀ : I s) (hs : ∀ i < n, ∀ t, I t → I (f i t)) :
    I (each f n s) := each_rule (P := fun _ ↦ I) h₀ hs

theorem rollback_invariant {I : σ → Prop} (h₀ : I s) (hs : ∀ i < n, ∀ t, I t → I (f i t)) :
    I (rollback f n s) := by
  induction n generalizing s with
  | zero => exact h₀
  | succ n ih => exact ih (hs n (by omega) s h₀) fun i hi ↦ hs i (by omega)

/-- Either all parts are set up, or one fails in a state in which those before it are set up. -/
theorem setUpAll_rule (free : ℕ → σ → σ) (h₀ : P 0 s)
    (hs : ∀ i < n, ∀ t, P i t → (setUp i t).1 = 0 → P (i + 1) (setUp i t).2) :
    (setUpAll setUp free n s).1 = 0 ∧ P n (setUpAll setUp free n s).2 ∨
      ∃ i < n, ∃ t, P i t ∧ (setUp i t).1 ≠ 0 ∧
        setUpAll setUp free n s = ((setUp i t).1, rollback free i (setUp i t).2) := by
  induction n with
  | zero => exact .inl ⟨rfl, h₀⟩
  | succ n ih =>
    rw [setUpAll]
    obtain ⟨hz, hp⟩ | ⟨i, hi, t, hp, hne, heq⟩ := ih fun i hi ↦ hs i (by omega)
    · rw [if_neg (not_not.mpr hz)]
      by_cases hn : (setUp n (setUpAll setUp free n s).2).1 = 0
      · dsimp only
        rw [if_neg (not_not.mpr hn)]
        exact .inl ⟨hn, hs n (by omega) _ hp hn⟩
      · exact .inr ⟨n, by omega, _, hp, hn, if_pos hn⟩
    · refine .inr ⟨i, by omega, t, hp, hne, ?_⟩
      rw [heq]
      exact if_pos hne

theorem setUpAll_invariant {I : σ → Prop} (h₀ : I s) (hs : ∀ i < n, ∀ t, I t → I (setUp i t).2)
    (hf : ∀ i < n, ∀ t, I t → I (free i t)) : I (setUpAll setUp free n s).2 := by
  obtain ⟨-, h⟩ | ⟨i, hi, t, ht, -, heq⟩ :=
    setUpAll_rule free (P := fun _ ↦ I) h₀ fun i hi t ht _ ↦ hs i hi t ht
  · exact h
  · rw [heq]
    exact rollback_invariant (hs i hi t ht) fun j hj ↦ hf j (by omega)

theorem Iio_succ (i : ℕ) : Set.Iio (i + 1) = insert i (Set.Iio i) := by
  ext q
  rw [Set.mem_Iio, Set.mem_insert_iff, Set.mem_Iio]
  omega

theorem Ico_succ (i n : ℕ) : Set.Ico (i + 1) n = Set.Ico i n \ {i} := by
  ext q
  rw [Set.mem_sdiff, Set.mem_Ico, Set.mem_Ico, Set.mem_singleton_iff]
  omega

theorem setUpAll_adds (h₀ : Q ∅ s)
    (hs : ∀ T i t, Q T t → (setUp i t).1 = 0 → Q (insert i T) (setUp i t).2)
    (hz : (setUpAll setUp free n s).1 = 0) : Q (Set.Iio n) (setUpAll setUp free n s).2 := by
  have hnone : Q (Set.Iio 0) s := by
    have hempty : Set.Iio 0 = (∅ : Set ℕ) := Set.Iio_eq_empty_iff.mpr fun b _ ↦ Nat.zero_le b
    rwa [hempty]
  have hone : ∀ i < n, ∀ t, Q (Set.Iio i) t → (setUp i t).1 = 0 →
      Q (Set.Iio (i + 1)) (setUp i t).2 := by
    intro i _ t ht hz
    rw [Iio_succ]
    exact hs _ i t ht hz
  obtain ⟨-, hall⟩ | ⟨i, -, t, -, hne, heq⟩ := setUpAll_rule (P := fun i ↦ Q (Set.Iio i)) free hnone hone
  · exact hall
  · rw [heq] at hz
    exact absurd hz hne

theorem each_removes (h₀ : Q (Set.Iio n) s) (hs : ∀ T i t, Q T t → Q (T \ {i}) (f i t)) :
    Q ∅ (each f n s) := by
  have hall : Q (Set.Ico 0 n) s := by
    have hIio : Set.Ico 0 n = Set.Iio n := Set.ext fun q ↦ and_iff_right (Nat.zero_le q)
    rwa [hIio]
  have hone : ∀ i < n, ∀ t, Q (Set.Ico i n) t → Q (Set.Ico (i + 1) n) (f i t) := by
    intro i _ t ht
    rw [Ico_succ]
    exact hs _ i t ht
  have hend := each_rule (P := fun i ↦ Q (Set.Ico i n)) hall hone
  rwa [Set.Ico_self] at hend

theorem setUpAll_of_first_fails (hn : 0 < n) (h : (setUp 0 s).1 ≠ 0) :
    setUpAll setUp free n s = setUp 0 s := by
  induction n with
  | zero => omega
  | succ n ih =>
    rcases Nat.eq_zero_or_pos n with rfl | hpos
    · rw [setUpAll, setUpAll, if_neg (by simp)]
      exact if_pos h
    · rw [setUpAll, ih hpos]
      exact if_pos h

theorem setUpAll_eq_zero_iff (free : ℕ → σ → σ) {ok : ℕ → Prop} (h : ∀ i t, (setUp i t).1 = 0 ↔ ok i) :
    (setUpAll setUp free n s).1 = 0 ↔ ∀ i < n, ok i := by
  induction n with
  | zero => simp [setUpAll]
  | succ n ih =>
    rw [setUpAll, Nat.forall_lt_succ_right, ← ih]
    split
    case isTrue hne => exact ⟨fun hz ↦ absurd hz hne, fun hz ↦ absurd hz.1 hne⟩
    case isFalse hz =>
      rw [← h n (setUpAll setUp free n s).2]
      dsimp only
      split
      case isTrue hne => exact ⟨fun hz ↦ absurd hz hne, fun hz ↦ absurd hz.2 hne⟩
      case isFalse hz' => exact ⟨fun hz' ↦ ⟨not_not.mp hz, hz'⟩, fun hz' ↦ hz'.2⟩

end Sequential
