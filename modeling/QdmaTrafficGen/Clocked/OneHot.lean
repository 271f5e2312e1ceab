import Mathlib.Tactic.Common

namespace Clocked

variable {w : ℕ}

def bus : {w : ℕ} → (Fin w → Bool) → BitVec w
  | 0, _ => 0#0
  | w + 1, f => BitVec.cons (f (Fin.last w)) (bus fun i ↦ f i.castSucc)

theorem getLsbD_bus (f : Fin w → Bool) (i : Fin w) : (bus f).getLsbD i = f i := by
  induction w with
  | zero => exact i.elim0
  | succ w ih =>
    rw [bus, BitVec.getLsbD_cons]
    induction i using Fin.lastCases with
    | last => exact if_pos rfl
    | cast i => rw [Fin.val_castSucc, if_neg (Nat.ne_of_lt i.isLt), ih]

def OneHot (x : BitVec w) : Prop := ∃ i : Fin w, x = BitVec.twoPow w i

theorem getLsbD_twoPow (i j : Fin w) : (BitVec.twoPow w i).getLsbD j = decide (j = i) := by
  rw [BitVec.getLsbD_twoPow, decide_eq_true i.isLt, Bool.true_and]
  exact decide_eq_decide.mpr ⟨fun h ↦ Fin.ext h.symm, fun h ↦ by rw [h]⟩

theorem twoPow_ne_zero (i : Fin w) : BitVec.twoPow w i ≠ 0#w := by
  intro h
  have hi := getLsbD_twoPow i i
  rw [h, BitVec.getLsbD_zero, decide_eq_true rfl] at hi
  exact Bool.false_ne_true hi

theorem twoPow_inj {i j : Fin w} (h : BitVec.twoPow w i = BitVec.twoPow w j) : i = j := by
  have hi := getLsbD_twoPow i i
  rw [h, getLsbD_twoPow, decide_eq_true rfl] at hi
  exact of_decide_eq_true hi

theorem twoPow_and_ne_zero (i : Fin w) (x : BitVec w) :
    BitVec.twoPow w i &&& x ≠ 0#w ↔ x.getLsbD i = true := by
  rw [BitVec.twoPow_and]
  split
  case isTrue h => exact iff_of_true (twoPow_ne_zero i) h
  case isFalse h => exact iff_of_false (fun hz ↦ hz rfl) h

theorem twoPow_and_of_ne_zero {i : Fin w} {x : BitVec w} (h : BitVec.twoPow w i &&& x ≠ 0#w) :
    BitVec.twoPow w i &&& x = BitVec.twoPow w i := by
  rw [BitVec.twoPow_and, if_pos ((twoPow_and_ne_zero i x).mp h)]

/-- How many places wire `j` is ahead of wire `i`, going round. -/
def ahead (i j : Fin w) : ℕ := if i ≤ j then j - i else w + j - i

theorem ahead_lt (i j : Fin w) : ahead i j < w := by
  unfold ahead
  split
  case isTrue => omega
  case isFalse h =>
    rw [Fin.not_le, Fin.lt_def] at h
    omega

theorem ahead_pos {i j : Fin w} (h : i ≠ j) : 0 < ahead i j := by
  have hij := Fin.val_ne_of_ne h
  unfold ahead
  split
  case isTrue hle =>
    rw [Fin.le_def] at hle
    omega
  case isFalse => omega

def place (i : Fin w) (k : ℕ) : Fin w := ⟨(i + k) % w, Nat.mod_lt _ i.pos⟩

theorem val_place (i : Fin w) {k : ℕ} (hk : k < w) :
    (place i k : ℕ) = if i + k < w then i + k else i + k - w := by
  split
  case isTrue h => exact Nat.mod_eq_of_lt h
  case isFalse h =>
    refine (Nat.mod_eq_sub_mod (by omega)).trans (Nat.mod_eq_of_lt ?_)
    omega

theorem place_ahead (i j : Fin w) : place i (ahead i j) = j := by
  apply Fin.ext
  rw [val_place i (ahead_lt i j), ahead]
  split
  case isTrue h =>
    rw [Fin.le_def] at h
    split <;> omega
  case isFalse h =>
    rw [Fin.not_le, Fin.lt_def] at h
    split <;> omega

theorem ahead_place (i j : Fin w) {k : ℕ} (hk : k ≤ ahead i j) :
    ahead (place i k) j = ahead i j - k := by
  have hlt := ahead_lt i j
  have hval := val_place i (show k < w by omega)
  unfold ahead at hk hlt ⊢
  simp only [Fin.le_def] at hk hlt ⊢
  rw [hval]
  split at hk <;> split <;> split <;> omega

theorem rotate_twoPow (i : Fin w) {j : ℕ} (hj : j < w) :
    BitVec.twoPow w i <<< j ||| BitVec.twoPow w i >>> (w - j) = BitVec.twoPow w (place i j) := by
  have hi := i.isLt
  apply BitVec.eq_of_getElem_eq
  intro k hk
  rw [Bool.eq_iff_iff, BitVec.getElem_twoPow, val_place i hj]
  simp only [BitVec.getElem_or, BitVec.getElem_shiftLeft, BitVec.getElem_ushiftRight,
    BitVec.getElem_twoPow, BitVec.getLsbD_twoPow, Bool.or_eq_true, Bool.and_eq_true,
    Bool.not_eq_true', decide_eq_true_eq, decide_eq_false_iff_not, Nat.not_lt]
  split <;> omega

theorem oneHot_rotate {x : BitVec w} (h : OneHot x) {j : ℕ} (hj : j < w) :
    OneHot (x <<< j ||| x >>> (w - j)) := by
  obtain ⟨i, rfl⟩ := h
  exact ⟨place i j, rotate_twoPow i hj⟩

theorem lsb_twoPow (i : Fin w) :
    BitVec.twoPow w i &&& (~~~BitVec.twoPow w i + 1#w) = BitVec.twoPow w i := by
  have hlower : ¬∃ j < i.val, (BitVec.twoPow w i).getLsbD j = true := by
    rintro ⟨j, hj, hone⟩
    rw [BitVec.getLsbD_twoPow, Bool.and_eq_true, decide_eq_true_eq, decide_eq_true_eq] at hone
    omega
  rw [← BitVec.neg_eq_not_add, BitVec.twoPow_and, if_pos]
  rw [BitVec.getLsbD_neg, getLsbD_twoPow, decide_eq_false hlower, decide_eq_true rfl, Bool.and_false,
    Bool.xor_false]

end Clocked
