import Mathlib.Algebra.Order.Ring.Nat
import Mathlib.Tactic.Linarith
import QdmaTrafficGen.Clocked.Ring
import QdmaTrafficGen.StC2h

open Clocked

namespace QdmaTrafficGen.StC2h

theorem getNextPowof2_spec {v : ℕ} (hv : 0 < v) :
    ∃ k, getNextPowof2 v = 2 ^ k ∧ v ≤ 2 ^ k ∧ 2 ^ k < 2 * v := by
  obtain ⟨hlo, hhi⟩ := (Nat.log2_eq_iff hv.ne').1 rfl
  rw [Nat.pow_succ] at hhi
  have hp : 0 < 2 ^ v.log2 := Nat.two_pow_pos _
  have hval : getNextPowof2 v = (v + (2 ^ v.log2 - 1)) / 2 ^ v.log2 * 2 ^ v.log2 := by
    simp only [getNextPowof2, fls, if_neg hv.ne', Nat.add_sub_cancel, Nat.shiftLeft_eq, Nat.one_mul,
      Nat.shiftRight_eq_div_pow]
  rcases hlo.eq_or_lt with heq | hlt
  · refine ⟨v.log2, ?_, heq.ge, by omega⟩
    rw [hval, Nat.div_eq_of_lt_le (k := 1) (by omega) (by omega), Nat.one_mul]
  · refine ⟨v.log2 + 1, ?_, by rw [Nat.pow_succ]; omega, by rw [Nat.pow_succ]; omega⟩
    rw [hval, Nat.div_eq_of_lt_le (k := 2) (by omega) (by omega), Nat.pow_succ, Nat.mul_comm]

section

variable {k x y m : ℕ}

theorem ringIdxDelta_mod (hk : 0 < k) (hle : x ≤ y) (hlt : y < x + k) :
    ringIdxDelta (y % k) (x % k) k = y - x := by
  have hslot : Ring.slot k (x % k) (y - x) = y % k := by
    rw [Ring.slot, Nat.mod_add_mod, Nat.add_sub_cancel' hle]
  have hd := Ring.distance (Nat.mod_lt x hk) (show y - x < k by omega)
  rw [hslot] at hd
  rw [ringIdxDelta]
  split at hd
  next h => rw [if_neg (by omega), Nat.add_comm, hd]
  next h => rw [if_pos (by omega), hd]

theorem succ_mod_eq (hk : 0 < k) (x : ℕ) :
    (if x % k + 1 = k then 0 else x % k + 1) = (x + 1) % k := by
  have hlt := Nat.mod_lt x hk
  have hmod := Nat.mod_add_mod x k 1
  rw [← hmod]
  generalize x % k = i at hlt ⊢
  split
  next h => rw [h, Nat.mod_self]
  next h => rw [Nat.mod_eq_of_lt (by omega)]

theorem ringIdxIncr_mod (hk : 0 < k) (hm : m ≤ k) : ringIdxIncr (x % k) m k = (x + m) % k := by
  have hlt := Nat.mod_lt x hk
  rw [← Nat.mod_add_mod, ringIdxIncr]
  generalize x % k = i at hlt ⊢
  split
  next h => rw [Nat.mod_eq_sub_mod h, Nat.mod_eq_of_lt (by omega)]
  next h => rw [Nat.mod_eq_of_lt (by omega)]

theorem ringIdxDecr_mod (hk : 0 < k) : ringIdxDecr (x % k) 1 k = (x + k - 1) % k := by
  have hlt := Nat.mod_lt x hk
  have hmod : (x + k - 1) % k = (x % k + (k - 1)) % k := by
    rw [Nat.mod_add_mod, Nat.add_sub_assoc hk]
  rw [hmod, ringIdxDecr]
  generalize x % k = i at hlt ⊢
  split
  next h =>
    rw [show i + (k - 1) = i - 1 + k by omega, Nat.add_mod_right,
      Nat.mod_eq_of_lt (by omega)]
  next h => rw [Nat.mod_eq_of_lt (by omega)]; omega

end

theorem fls_two_pow (k : ℕ) : fls (2 ^ k) - 1 = k := by
  rw [fls, if_neg (Nat.two_pow_pos k).ne', Nat.log2_two_pow, Nat.add_sub_cancel]

namespace Conf

structure Ok (c : Conf) : Prop where
  rngsz : 1 < c.rngsz
  rngszCmpt : 1 < c.rngszCmpt
  c2hBufsz : 0 < c.c2hBufsz

variable {c : Conf}

theorem Ok.descBufSize (h : c.Ok) : c.descBufSize = 2 ^ c.descPgShift ∧
    c.c2hBufsz ≤ 2 ^ c.descPgShift ∧ 2 ^ c.descPgShift < 2 * c.c2hBufsz := by
  obtain ⟨k, hk, hle, hlt⟩ := getNextPowof2_spec h.c2hBufsz
  have hs : c.descPgShift = k := (congrArg (fls · - 1) hk).trans (fls_two_pow k)
  exact hs ▸ ⟨hk, hle, hlt⟩

theorem Ok.maxPgOffset (h : c.Ok) : 0 < c.numBufsPerPg ∧
    c.maxPgOffset = c.numBufsPerPg * c.descBufSize := by
  have hmax : c.maxPgOffset = 2 ^ (12 + c.descPgOrder) := by
    rw [Conf.maxPgOffset, pageShift, Nat.shiftLeft_eq, Nat.shiftLeft_eq, Nat.one_mul, ← Nat.pow_add]
  have hle : c.descPgShift ≤ 12 + c.descPgOrder := by
    rw [descPgOrder, pageShift]
    split <;> omega
  have hnum : c.numBufsPerPg = 2 ^ (12 + c.descPgOrder - c.descPgShift) := by
    rw [numBufsPerPg, hmax, Nat.shiftRight_eq_div_pow, Nat.pow_div hle Nat.two_pos]
  rw [hnum, h.descBufSize.1, hmax, ← Nat.pow_add, Nat.sub_add_cancel hle]
  exact ⟨Nat.two_pow_pos _, rfl⟩

theorem ceil_eq (a : ℕ) {b : ℕ} (hb : 0 < b) :
    a / b + (if a % b = 0 then 0 else 1) = (a + (b - 1)) / b := by
  have hdiv := Nat.div_add_mod a b
  have hlt := Nat.mod_lt a hb
  refine (Nat.div_eq_of_lt_le ?_ ?_).symm
  · split
    · rw [Nat.add_zero, Nat.mul_comm]
      omega
    · rw [Nat.add_mul, Nat.mul_comm (a / b)]
      omega
  · split
    · rw [Nat.add_zero, Nat.add_mul, Nat.mul_comm (a / b)]
      omega
    · rw [Nat.add_mul, Nat.add_mul, Nat.mul_comm (a / b)]
      omega

theorem Ok.numPages (h : c.Ok) : (∃ p, c.numPages = 2 ^ p) ∧
    (c.numBufsPerPg - 1 + (c.rngsz - 1)) / c.numBufsPerPg < c.numPages := by
  have hn := h.maxPgOffset.1
  have hr := h.rngsz
  set n := c.numBufsPerPg
  have hceil := ceil_eq c.rngsz hn
  have hpos : 0 < (c.rngsz + (n - 1)) / n := Nat.div_pos (by omega) hn
  obtain ⟨k, hk, hle, -⟩ := getNextPowof2_spec hpos
  have hval : c.numPages = if 2 ^ k < c.rngsz then 2 ^ (k + 1) else 2 ^ k := by
    simp only [Conf.numPages]
    rw [hceil, hk, Nat.shiftLeft_eq, ← Nat.pow_succ]
  have hless : (n - 1 + (c.rngsz - 1)) / n ≤ (c.rngsz + (n - 1)) / n := Nat.div_le_div_right (by omega)
  rw [hval]
  split
  next hlt =>
    refine ⟨⟨_, rfl⟩, ?_⟩
    rw [Nat.pow_succ]
    omega
  next hge =>
    refine ⟨⟨_, rfl⟩, lt_of_lt_of_le ?_ (not_lt.1 hge)⟩
    refine (Nat.div_lt_iff_lt_mul hn).2 ?_
    have hmul : c.rngsz + n ≤ c.rngsz * n + 1 := by nlinarith
    omega

end Conf

theorem takeBufs_eq {bufsz : ℕ} (hb : 0 < bufsz) {k flNr len : ℕ} (hk : len ≤ k) :
    takeBufs bufsz k flNr len = (flNr + len / bufsz, len % bufsz) := by
  induction k generalizing flNr len with
  | zero =>
    obtain rfl := Nat.eq_zero_of_le_zero hk
    rw [takeBufs, Nat.zero_div, Nat.zero_mod, Nat.add_zero]
  | succ k ih =>
    rw [takeBufs]
    split
    next hge =>
      rw [ih (by omega), Nat.div_eq_sub_div hb hge, ← Nat.mod_eq_sub_mod hge]
      congr 1
      omega
    next hlt => rw [Nat.div_eq_of_lt (by omega), Nat.mod_eq_of_lt (by omega), Nat.add_zero]

/-- The bytes in the last of the buffers that the device takes for a packet. -/
def lastLen (bufsz len : ℕ) : ℕ := len - (bufsFor bufsz len - 1) * bufsz

theorem bufsFor_zero {bufsz : ℕ} (hb : 0 < bufsz) : bufsFor bufsz 0 = 1 := by
  rw [bufsFor, Nat.div_eq_of_lt (by omega)]
  rfl

theorem bufsFor_eq {bufsz len n : ℕ} (hb : 0 < bufsz) (hlo : n * bufsz < len)
    (hhi : len ≤ (n + 1) * bufsz) : bufsFor bufsz len = n + 1 := by
  have hdiv : (len + bufsz - 1) / bufsz = n + 1 := by
    rw [Nat.add_mul] at hhi
    refine Nat.div_eq_of_lt_le ?_ ?_
    · rw [Nat.add_mul]
      omega
    · rw [Nat.add_mul, Nat.add_mul]
      omega
  rw [bufsFor, hdiv]
  omega

theorem lastLen_eq {bufsz len n : ℕ} (hb : 0 < bufsz) (hlo : n * bufsz < len)
    (hhi : len ≤ (n + 1) * bufsz) : lastLen bufsz len = len - n * bufsz := by
  rw [lastLen, bufsFor_eq hb hlo hhi, Nat.add_sub_cancel]

theorem exists_bufs {bufsz len : ℕ} (hb : 0 < bufsz) (hl : 0 < len) :
    ∃ n, n * bufsz < len ∧ len ≤ (n + 1) * bufsz := by
  have hdiv := Nat.div_add_mod (len - 1) bufsz
  have hlt := Nat.mod_lt (len - 1) hb
  rw [Nat.mul_comm] at hdiv
  refine ⟨(len - 1) / bufsz, by omega, ?_⟩
  rw [Nat.add_mul]
  omega

section

variable {len bufsz s : ℕ}

theorem getFlNr_zero (pgMask : ℕ) : getFlNr 0 bufsz s pgMask = (1, bufsz) := by simp [getFlNr]

theorem getFlNr_of_not_isPowerOfTwo (hb : 0 < bufsz) (hl : 0 < len) (hlen : ¬len.isPowerOfTwo) :
    getFlNr len bufsz s (2 ^ s - 1) = (bufsFor bufsz len, lastLen bufsz len) := by
  rw [← Nat.ne_zero_and_sub_one_eq_zero_iff_isPowerOfTwo] at hlen
  rw [getFlNr, if_neg fun h ↦ hlen ⟨hl.ne', h⟩]
  obtain ⟨n, hlo, hhi⟩ := exists_bufs hb hl
  rw [bufsFor_eq hb hlo hhi, lastLen_eq hb hlo hhi]
  split
  next hle =>
    have h0 : n = 0 := by
      by_contra h0
      have hmul := Nat.mul_le_mul_right bufsz (Nat.one_le_iff_ne_zero.2 h0)
      omega
    subst h0
    rw [Nat.zero_mul, Nat.sub_zero]
  next =>
    rw [takeBufs_eq hb le_rfl, Nat.zero_add]
    dsimp only
    rcases hhi.eq_or_lt with heq | hlt
    · rw [heq, Nat.mul_mod_left, Nat.mul_div_cancel _ hb, if_neg (not_not.2 rfl), Nat.add_mul]
      congr 1
      omega
    · have hdiv : len / bufsz = n := Nat.div_eq_of_lt_le hlo.le hlt
      have hmod := Nat.div_add_mod len bufsz
      rw [hdiv, Nat.mul_comm] at hmod
      rw [if_pos (by omega), hdiv]
      congr 1
      omega

theorem getFlNr_two_pow (k : ℕ) : getFlNr (2 ^ k) bufsz s (2 ^ s - 1) =
    if k < s then (1, 2 ^ k) else (2 ^ (k - s), bufsz) := by
  have hk := Nat.two_pow_pos k
  have hs := Nat.two_pow_pos s
  have hand : 2 ^ k &&& (2 ^ k - 1) = 0 :=
    (Nat.and_sub_one_eq_zero_iff_isPowerOfTwo hk.ne').2 ⟨k, rfl⟩
  simp only [getFlNr]
  rw [if_pos hand, if_pos hk.ne', Nat.shiftRight_eq_div_pow, Nat.and_two_pow_sub_one_eq_mod]
  by_cases hks : k < s
  · have hpow := Nat.pow_lt_pow_right Nat.one_lt_two hks
    rw [if_pos hks, Nat.mod_eq_of_lt hpow, if_neg hk.ne', Nat.div_eq_of_lt_le (k := 1) (by omega) (by omega)]
  · obtain ⟨j, rfl⟩ := Nat.exists_eq_add_of_le (not_lt.1 hks)
    rw [if_neg hks, Nat.add_sub_cancel_left, Nat.pow_add, Nat.mul_mod_right, if_pos rfl,
      Nat.mul_add_div hs, Nat.div_eq_of_lt (by omega), Nat.add_zero]

theorem getFlNr_pages (j : ℕ) : getFlNr (2 ^ (s + j)) (2 ^ s) s (2 ^ s - 1) =
    (bufsFor (2 ^ s) (2 ^ (s + j)), lastLen (2 ^ s) (2 ^ (s + j))) := by
  have hb := Nat.two_pow_pos s
  have hj := Nat.two_pow_pos j
  have hmul : 2 ^ (s + j) = 2 ^ j * 2 ^ s := by rw [Nat.add_comm, Nat.pow_add]
  have hsub : (2 ^ j - 1) * 2 ^ s + 2 ^ s = 2 ^ j * 2 ^ s := by
    rw [← Nat.succ_mul, Nat.succ_eq_add_one, Nat.sub_add_cancel hj]
  have hlo : (2 ^ j - 1) * 2 ^ s < 2 ^ (s + j) := by omega
  have hhi : 2 ^ (s + j) ≤ (2 ^ j - 1 + 1) * 2 ^ s := by
    rw [Nat.sub_add_cancel hj]
    omega
  rw [getFlNr_two_pow, if_neg (by omega), Nat.add_sub_cancel_left, bufsFor_eq hb hlo hhi,
    lastLen_eq hb hlo hhi, Nat.sub_add_cancel hj]
  congr 1
  omega

theorem getFlNr_ne (hb : 0 < bufsz) (hlt : bufsz < 2 ^ s) (j : ℕ) :
    getFlNr (2 ^ (s + j)) bufsz s (2 ^ s - 1) ≠
      (bufsFor bufsz (2 ^ (s + j)), lastLen bufsz (2 ^ (s + j))) := by
  intro h
  obtain ⟨n, hlo, hhi⟩ := exists_bufs hb (Nat.two_pow_pos (s + j))
  rw [getFlNr_two_pow, if_neg (by omega), Nat.add_sub_cancel_left, bufsFor_eq hb hlo hhi] at h
  have hn : 2 ^ j = n + 1 := (Prod.mk.inj h).1
  have hmore : 2 ^ j * bufsz < 2 ^ (s + j) := by
    rw [Nat.add_comm, Nat.pow_add]
    exact Nat.mul_lt_mul_of_pos_left hlt (Nat.two_pow_pos j)
  rw [hn] at hmore
  omega

theorem getFlNr_iff_of_pos (hb : 0 < bufsz) (hle : bufsz ≤ 2 ^ s) (hlt : 2 ^ s < 2 * bufsz)
    (hl : 0 < len) : getFlNr len bufsz s (2 ^ s - 1) = (bufsFor bufsz len, lastLen bufsz len) ↔
      bufsz.isPowerOfTwo ∨ ¬len.isPowerOfTwo ∨ len ≤ bufsz := by
  by_cases hlen : len.isPowerOfTwo
  swap
  · exact ⟨fun _ ↦ .inr (.inl hlen), fun _ ↦ getFlNr_of_not_isPowerOfTwo hb hl hlen⟩
  obtain ⟨k, rfl⟩ := hlen
  have hpow {i : ℕ} (hi : i < s) : 2 ^ i ≤ bufsz ∧ 2 ^ i * 2 ≤ 2 ^ s := by
    have hp := Nat.pow_le_pow_right Nat.two_pos (Nat.succ_le_of_lt hi)
    rw [Nat.pow_succ] at hp
    omega
  by_cases hks : k < s
  · have hfits := (hpow hks).1
    have hk := Nat.two_pow_pos k
    rw [getFlNr_two_pow, if_pos hks, bufsFor_eq (n := 0) hb (by omega) (by omega),
      lastLen_eq (n := 0) hb (by omega) (by omega), Nat.zero_mul, Nat.sub_zero, Nat.zero_add]
    exact ⟨fun _ ↦ .inr (.inr hfits), fun _ ↦ rfl⟩
  obtain ⟨j, rfl⟩ := Nat.exists_eq_add_of_le (not_lt.1 hks)
  rcases hle.eq_or_lt with rfl | hne
  · exact ⟨fun _ ↦ .inl ⟨s, rfl⟩, fun _ ↦ getFlNr_pages j⟩
  refine ⟨fun h ↦ absurd h (getFlNr_ne hb hne j), ?_⟩
  rintro (⟨i, rfl⟩ | hnot | hfits)
  · have hi := (hpow ((Nat.pow_lt_pow_iff_right Nat.one_lt_two).1 hne)).2
    omega
  · exact absurd ⟨s + j, rfl⟩ hnot
  · have hge := Nat.pow_le_pow_right Nat.two_pos (Nat.le_add_right s j)
    omega

/-- The driver counts the buffers of a packet, and the bytes in the last one, as the device fills them
exactly if the packet is not empty and the buffers have a power of two bytes, the packet has not, or it
fits into one buffer. -/
theorem getFlNr_iff (hb : 0 < bufsz) (hle : bufsz ≤ 2 ^ s) (hlt : 2 ^ s < 2 * bufsz) :
    getFlNr len bufsz s (2 ^ s - 1) = (bufsFor bufsz len, lastLen bufsz len) ↔
      0 < len ∧ (bufsz.isPowerOfTwo ∨ ¬len.isPowerOfTwo ∨ len ≤ bufsz) := by
  rcases Nat.eq_zero_or_pos len with rfl | hl
  · have hlast : lastLen bufsz 0 = 0 := Nat.zero_sub _
    rw [getFlNr_zero, bufsFor_zero hb, hlast, Prod.mk.injEq]
    exact iff_of_false (fun h ↦ hb.ne' h.2) fun h ↦ Nat.lt_irrefl 0 h.1
  · rw [getFlNr_iff_of_pos hb hle hlt hl, and_iff_right hl]

theorem getFlNr_eq (hb : 0 < bufsz) (hle : bufsz ≤ 2 ^ s) (hlt : 2 ^ s < 2 * bufsz)
    (h : bufsz.isPowerOfTwo ∨ ¬len.isPowerOfTwo ∨ len ≤ bufsz) :
    (getFlNr len bufsz s (2 ^ s - 1)).1 = bufsFor bufsz len ∧
      (if len = 0 then 0 else (getFlNr len bufsz s (2 ^ s - 1)).2) = lastLen bufsz len := by
  rcases Nat.eq_zero_or_pos len with rfl | hl
  · rw [getFlNr_zero, bufsFor_zero hb, if_pos rfl]
    exact ⟨rfl, (Nat.zero_sub _).symm⟩
  · rw [(getFlNr_iff_of_pos hb hle hlt hl).2 h, if_neg hl.ne']
    exact ⟨rfl, rfl⟩

end

/-- Buffers of 3968 bytes, one of the default sizes of the device: a packet of 4096 bytes takes two. -/
theorem getFlNr_iff_3968 : getFlNr 4096 3968 12 (2 ^ 12 - 1) ≠ (bufsFor 3968 4096, lastLen 3968 4096) := by
  intro h
  have hok := (getFlNr_iff (by decide) (by decide) (by decide)).1 h
  exact absurd hok.2 (by decide)

end QdmaTrafficGen.StC2h
