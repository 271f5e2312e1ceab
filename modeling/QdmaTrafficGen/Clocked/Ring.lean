import Mathlib.Data.Nat.ModEq
import Mathlib.Logic.Function.Basic
import Mathlib.Tactic.Common

namespace Clocked.Ring

variable {α : Type*}

def succ (depth p : ℕ) : ℕ := if p = depth - 1 then 0 else p + 1

def slot (depth p k : ℕ) : ℕ := (p + k) % depth

/-- The words of `mem` from the read address up to the write address are `q`, oldest first. -/
structure Holds (depth : ℕ) (mem : ℕ → α) (rd wr : ℕ) (q : List α) : Prop where
  rd_lt : rd < depth
  length_le : q.length ≤ depth
  wr_eq : wr = slot depth rd q.length
  get : ∀ k, k < q.length → q[k]? = some (mem (slot depth rd k))

section

variable {depth p : ℕ}

theorem slot_zero (hp : p < depth) : slot depth p 0 = p := Nat.mod_eq_of_lt hp

theorem slot_lt (hp : p < depth) (k : ℕ) : slot depth p k < depth := Nat.mod_lt _ (by omega)

theorem succ_eq_mod (hp : p < depth) : succ depth p = (p + 1) % depth := by
  unfold succ
  split
  · rw [show p + 1 = depth by omega, Nat.mod_self]
  · rw [Nat.mod_eq_of_lt (by omega)]

theorem succ_lt (hp : p < depth) : succ depth p < depth := by
  rw [succ_eq_mod hp]
  exact Nat.mod_lt _ (by omega)

theorem succ_slot (hp : p < depth) (k : ℕ) : succ depth (slot depth p k) = slot depth p (k + 1) := by
  rw [succ_eq_mod (slot_lt hp k), slot, slot, Nat.mod_add_mod, Nat.add_assoc]

theorem slot_succ (hp : p < depth) (k : ℕ) : slot depth (succ depth p) k = slot depth p (k + 1) := by
  rw [succ_eq_mod hp, slot, slot, Nat.mod_add_mod, Nat.add_assoc, Nat.add_comm 1 k]

theorem slot_inj {j k : ℕ} (hj : j < depth) (hk : k < depth) :
    slot depth p j = slot depth p k ↔ j = k := by
  refine ⟨fun h ↦ ?_, fun h ↦ by rw [h]⟩
  have hm : j % depth = k % depth := Nat.ModEq.add_left_cancel' p h
  rwa [Nat.mod_eq_of_lt hj, Nat.mod_eq_of_lt hk] at hm

theorem succ_mod {n : ℕ} (hd : 0 < depth) : succ depth (n % depth) = (n + 1) % depth := by
  rw [succ_eq_mod (Nat.mod_lt n hd), Nat.mod_add_mod]

def evenLap (depth k : ℕ) : Bool := k / depth % 2 = 0

theorem evenLap_succ {k : ℕ} (hd : 0 < depth) : evenLap depth (k + 1) =
    if k % depth + 1 = depth then !evenLap depth k else evenLap depth k := by
  have hdiv := Nat.div_add_mod k depth
  have hmod := Nat.mod_lt k hd
  unfold evenLap
  split
  next h =>
    have hnext : (k + 1) / depth = k / depth + 1 := by
      rw [show k + 1 = depth * (k / depth + 1) by rw [Nat.mul_succ]; omega,
        Nat.mul_div_cancel_left _ hd]
    rw [hnext, ← decide_not]
    exact decide_eq_decide.2 (by omega)
  next h =>
    have hsame : (k + 1) / depth = k / depth := by
      rw [show k + 1 = depth * (k / depth) + (k % depth + 1) by omega, Nat.mul_add_div hd,
        Nat.div_eq_of_lt (show k % depth + 1 < depth by omega), Nat.add_zero]
    rw [hsame]

theorem distance {k : ℕ} (hp : p < depth) (hk : k < depth) :
    (if slot depth p k < p then depth - p + slot depth p k else slot depth p k - p) = k := by
  unfold slot
  rcases Nat.lt_or_ge (p + k) depth with h | h
  · rw [Nat.mod_eq_of_lt h, if_neg (by omega)]
    omega
  · rw [Nat.mod_eq_sub_mod h, Nat.mod_eq_of_lt (by omega), if_pos (by omega)]
    omega

end

namespace Holds

variable {depth rd wr : ℕ} {mem : ℕ → α} {q : List α} {a : α}

theorem nil (hp : rd < depth) : Holds depth mem rd rd [] where
  rd_lt := hp
  length_le := Nat.zero_le _
  wr_eq := (slot_zero hp).symm
  get := fun k hk ↦ absurd hk (Nat.not_lt_zero k)

theorem head (h : Holds depth mem rd wr (a :: q)) : mem rd = a := by
  have h₀ := h.get 0 (Nat.zero_lt_succ _)
  rw [slot_zero h.rd_lt, List.getElem?_cons_zero] at h₀
  exact (Option.some.inj h₀).symm

theorem push (h : Holds depth mem rd wr q) (hl : q.length < depth) (a : α) :
    Holds depth (Function.update mem wr a) rd (succ depth wr) (q ++ [a]) where
  rd_lt := h.rd_lt
  length_le := by
    rw [List.length_append]
    exact hl
  wr_eq := by rw [h.wr_eq, succ_slot h.rd_lt, List.length_append, List.length_singleton]
  get := by
    intro k hk
    rw [List.length_append, List.length_singleton] at hk
    rcases Nat.lt_succ_iff_lt_or_eq.mp hk with hk | rfl
    · have hne : slot depth rd k ≠ wr := by
        rw [h.wr_eq]
        exact fun he ↦ hk.ne ((slot_inj (by omega) hl).mp he)
      rw [List.getElem?_append_left hk, h.get k hk, Function.update_of_ne hne]
    · rw [← h.wr_eq, Function.update_self, List.getElem?_concat_length]

theorem pop (h : Holds depth mem rd wr (a :: q)) : Holds depth mem (succ depth rd) wr q where
  rd_lt := succ_lt h.rd_lt
  length_le := (Nat.le_succ _).trans h.length_le
  wr_eq := by rw [h.wr_eq, slot_succ h.rd_lt, List.length_cons]
  get := by
    intro k hk
    rw [slot_succ h.rd_lt, ← h.get (k + 1) (Nat.succ_lt_succ hk), List.getElem?_cons_succ]

theorem pushes (qs : List α) (h : Holds depth mem rd wr q) (hl : q.length + qs.length ≤ depth) :
    Holds depth (qs.foldl (fun s a ↦ (Function.update s.1 s.2 a, succ depth s.2)) (mem, wr)).1 rd
      (qs.foldl (fun s a ↦ (Function.update s.1 s.2 a, succ depth s.2)) (mem, wr)).2 (q ++ qs) := by
  induction qs generalizing mem wr q with
  | nil => rwa [List.append_nil]
  | cons a qs ih =>
    rw [List.length_cons] at hl
    have hpush := ih (h.push (by omega) a) (by rw [List.length_append, List.length_singleton]; omega)
    rwa [List.append_assoc, List.singleton_append] at hpush

theorem drop {k : ℕ} (h : Holds depth mem rd wr q) (hk : k ≤ q.length) :
    Holds depth mem (slot depth rd k) wr (q.drop k) := by
  induction k with
  | zero => rwa [slot_zero h.rd_lt]
  | succ k ih =>
    have hd := ih (by omega)
    rw [List.drop_eq_getElem_cons (by omega)] at hd
    have hp := hd.pop
    rwa [succ_slot h.rd_lt] at hp

theorem succ_wr_eq_rd (h : Holds depth mem rd wr q) (hl : q.length < depth) :
    succ depth wr = rd ↔ q.length + 1 = depth := by
  rw [h.wr_eq, succ_slot h.rd_lt]
  constructor
  · intro he
    by_contra hne
    have hz := (slot_inj (show q.length + 1 < depth by omega) (by omega)).mp
      (he.trans (slot_zero h.rd_lt).symm)
    omega
  · intro he
    rw [he, slot, Nat.add_mod_right, Nat.mod_eq_of_lt h.rd_lt]

theorem succ_rd_eq_wr (h : Holds depth mem rd wr (a :: q)) : succ depth rd = wr ↔ q = [] := by
  have hl : q.length < depth := h.length_le
  rw [h.pop.wr_eq, ← List.length_eq_zero_iff, eq_comm]
  nth_rewrite 2 [← slot_zero (succ_lt h.rd_lt)]
  exact slot_inj hl (by omega)

end Holds

end Clocked.Ring
