import Mathlib.Data.Nat.ModEq
import Mathlib.Algebra.BigOperators.Group.List.Basic
import Mathlib.Data.List.Induction

namespace OnesComplement

variable {w : ℕ}

/-- Addition with an end-around carry. -/
def add (a b : BitVec w) : BitVec w := if a.toNat + b.toNat < 2 ^ w then a + b else a + b + 1#w

def sum (l : List (BitVec w)) : BitVec w := l.foldl add 0

/-- The part of a number above its low `w` bits, added to the part below. -/
def fold (w n : ℕ) : ℕ := n % 2 ^ w + n / 2 ^ w

theorem toNat_add (a b : BitVec w) : (add a b).toNat =
    if a.toNat + b.toNat < 2 ^ w then a.toNat + b.toNat else a.toNat + b.toNat - (2 ^ w - 1) := by
  have ha := a.isLt
  have hb := b.isLt
  unfold add
  split_ifs with h
  · rw [BitVec.toNat_add, Nat.mod_eq_of_lt h]
  · rw [BitVec.toNat_add, BitVec.toNat_add, BitVec.toNat_ofNat, Nat.mod_add_mod, Nat.add_mod_mod,
      Nat.mod_eq_sub_mod (by omega), Nat.mod_eq_of_lt (by omega)]
    omega

theorem toNat_add_modEq (a b : BitVec w) :
    (add a b).toNat ≡ a.toNat + b.toNat [MOD 2 ^ w - 1] := by
  rw [toNat_add]
  split_ifs with h
  · rfl
  · have hle : 2 ^ w - 1 ≤ a.toNat + b.toNat := by omega
    exact (Nat.modEq_iff_dvd' (Nat.sub_le _ _)).mpr (by rw [Nat.sub_sub_self hle])

theorem toNat_add_eq_zero (a b : BitVec w) : (add a b).toNat = 0 ↔ a.toNat + b.toNat = 0 := by
  have hpos := Nat.two_pow_pos w
  rw [toNat_add]
  split_ifs with h
  · rfl
  · omega

theorem sum_concat (l : List (BitVec w)) (a : BitVec w) : sum (l ++ [a]) = add (sum l) a :=
  List.foldl_concat ..

theorem toNat_sum_modEq (l : List (BitVec w)) :
    (sum l).toNat ≡ (l.map BitVec.toNat).sum [MOD 2 ^ w - 1] := by
  induction l using List.reverseRecOn with
  | nil => exact congrArg (· % _) BitVec.toNat_zero
  | append_singleton l a ih =>
    rw [sum_concat, List.map_append, List.sum_append, List.map_singleton, List.sum_singleton]
    exact (toNat_add_modEq _ _).trans (ih.add_right _)

theorem toNat_sum_eq_zero (l : List (BitVec w)) :
    (sum l).toNat = 0 ↔ (l.map BitVec.toNat).sum = 0 := by
  induction l using List.reverseRecOn with
  | nil => exact iff_of_true BitVec.toNat_zero rfl
  | append_singleton l a ih =>
    rw [sum_concat, toNat_add_eq_zero, List.map_append, List.sum_append, List.map_singleton,
      List.sum_singleton, Nat.add_eq_zero_iff, Nat.add_eq_zero_iff, ih]

/-- Of the two zeros, words that are not all zero can only add up to the one with all bits set. -/
theorem sum_eq_allOnes {l : List (BitVec w)} (hd : 2 ^ w - 1 ∣ (l.map BitVec.toNat).sum)
    (h₀ : (l.map BitVec.toNat).sum ≠ 0) : sum l = BitVec.allOnes w := by
  have hdvd : 2 ^ w - 1 ∣ (sum l).toNat := ((toNat_sum_modEq l).dvd_iff dvd_rfl).mpr hd
  have hle := Nat.le_of_dvd (Nat.pos_of_ne_zero (h₀ ∘ (toNat_sum_eq_zero l).mp)) hdvd
  have hlt := (sum l).isLt
  apply BitVec.eq_of_toNat_eq
  rw [BitVec.toNat_allOnes]
  omega

theorem fold_le (w n : ℕ) : fold w n ≤ n := by
  have hdiv := Nat.div_add_mod n (2 ^ w)
  have hmul := Nat.le_mul_of_pos_left (n / 2 ^ w) (Nat.two_pow_pos w)
  unfold fold
  omega

theorem fold_modEq (w n : ℕ) : fold w n ≡ n [MOD 2 ^ w - 1] := by
  rw [Nat.modEq_iff_dvd' (fold_le w n)]
  refine ⟨n / 2 ^ w, ?_⟩
  have hdiv := Nat.div_add_mod n (2 ^ w)
  rw [Nat.sub_mul, Nat.one_mul, fold]
  omega

theorem fold_fold_lt {n : ℕ} (h : n < 2 ^ w * 2 ^ w) : fold w (fold w n) < 2 ^ w := by
  have hq : n / 2 ^ w < 2 ^ w := Nat.div_lt_of_lt_mul h
  have hr := Nat.mod_lt n (Nat.two_pow_pos w)
  rcases Nat.lt_or_ge (fold w n) (2 ^ w) with hlt | hge
  · exact (fold_le w _).trans_lt hlt
  · have hsum : fold w n = n % 2 ^ w + n / 2 ^ w := rfl
    rw [fold, Nat.mod_eq_sub_mod hge, Nat.mod_eq_of_lt (by omega), Nat.div_eq_sub_div
      (Nat.two_pow_pos w) hge, Nat.div_eq_of_lt (by omega)]
    omega

theorem dvd_add_complement {n : ℕ} (h : n < 2 ^ w * 2 ^ w) :
    2 ^ w - 1 ∣ n + (2 ^ w - 1 - fold w (fold w n)) := by
  have hle : fold w (fold w n) ≤ n := (fold_le w _).trans (fold_le w n)
  have hmod : fold w (fold w n) ≡ n [MOD 2 ^ w - 1] := (fold_modEq w _).trans (fold_modEq w n)
  have hlt := fold_fold_lt h
  have hsum : n + (2 ^ w - 1 - fold w (fold w n)) = n - fold w (fold w n) + (2 ^ w - 1) := by omega
  rw [hsum]
  exact Nat.dvd_add ((Nat.modEq_iff_dvd' hle).mp hmod) dvd_rfl

end OnesComplement
