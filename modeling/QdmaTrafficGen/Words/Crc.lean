import Mathlib.Data.List.Basic
import Mathlib.Tactic.Common

namespace Crc

variable {w : ℕ} {poly a b c : BitVec w} {ms ns ps ss : List Bool}

/-- One bit more: the remainder moves up by one place, and the polynomial comes in if the bit that
leaves at the top is not the one that enters. -/
def step (poly c : BitVec w) (d : Bool) : BitVec w :=
  c <<< 1 ^^^ if c.msb ^^ d then poly else 0#w

/-- The remainder after the bits `ds`, the first of which enters first. -/
def feed (poly c : BitVec w) (ds : List Bool) : BitVec w := ds.foldl (step poly) c

@[simp] theorem feed_nil : feed poly c [] = c := rfl

@[simp] theorem feed_cons (d : Bool) (ds : List Bool) :
    feed poly c (d :: ds) = feed poly (step poly c d) ds := rfl

theorem feed_append (ds es : List Bool) : feed poly c (ds ++ es) = feed poly (feed poly c ds) es :=
  List.foldl_append ..

theorem step_xor (a b : BitVec w) (d e : Bool) :
    step poly (a ^^^ b) (d ^^ e) = step poly a d ^^^ step poly b e := by
  have hpoly : (if a.msb ^^ b.msb ^^ (d ^^ e) then poly else 0#w) =
      (if a.msb ^^ d then poly else 0#w) ^^^ if b.msb ^^ e then poly else 0 := by
    cases a.msb <;> cases b.msb <;> cases d <;> cases e <;> simp
  rw [step, step, step, BitVec.msb_xor, hpoly, BitVec.shiftLeft_xor_distrib]
  ac_rfl

theorem feed_xor (h : ms.length = ns.length) :
    feed poly (a ^^^ b) (List.zipWith xor ms ns) = feed poly a ms ^^^ feed poly b ns := by
  induction ms generalizing a b ns with
  | nil =>
    obtain rfl := List.eq_nil_of_length_eq_zero h.symm
    rfl
  | cons m ms ih =>
    obtain ⟨n, ns, rfl⟩ := List.exists_cons_of_length_eq_add_one h.symm
    rw [List.zipWith_cons_cons, feed_cons, feed_cons, feed_cons, step_xor, ih (Nat.succ.inj h)]

theorem lsb_shiftLeft (c : BitVec w) : (c <<< 1).getLsbD 0 = false := by simp

theorem step_eq_zero (hw : 0 < w) (hp : poly.getLsbD 0 = true) (h : step poly c false = 0#w) : c = 0#w := by
  have hmsb : c.msb = false := by
    by_contra hne
    have hlsb := congrArg (BitVec.getLsbD · 0) h
    simp [step, Bool.of_not_eq_false hne, hp] at hlsb
  rw [step, hmsb, Bool.xor_false, if_neg Bool.false_ne_true, BitVec.xor_zero] at h
  refine BitVec.eq_of_getLsbD_eq fun i hi ↦ ?_
  rcases Nat.lt_or_ge (i + 1) w with hlt | hge
  · have hbit := congrArg (BitVec.getLsbD · (i + 1)) h
    rw [BitVec.getLsbD_shiftLeft] at hbit
    simpa [hlt, -BitVec.getLsbD_eq_getElem] using hbit
  · have hlast : c.getLsbD i = c.msb := by
      rw [BitVec.msb_eq_getLsbD_last, show i = w - 1 by omega]
    rw [hlast, hmsb, BitVec.getLsbD_zero]

theorem feed_zero_inj (hw : 0 < w) (hp : poly.getLsbD 0 = true) {n : ℕ}
    (h : feed poly c (List.replicate n false) = 0#w) : c = 0#w := by
  induction n generalizing c with
  | zero => exact h
  | succ n ih => exact step_eq_zero hw hp (ih h)

theorem zipWith_xor_self (ds : List Bool) :
    List.zipWith xor ds ds = List.replicate ds.length false := by
  induction ds with
  | nil => rfl
  | cons d ds ih => rw [List.zipWith_cons_cons, ih, Bool.xor_self, List.length_cons, List.replicate_succ]

theorem xor_eq_zero_iff : a ^^^ b = 0#w ↔ a = b := BitVec.xor_eq_zero_iff

theorem feed_inj (hw : 0 < w) (hp : poly.getLsbD 0 = true) (ds : List Bool)
    (h : feed poly a ds = feed poly b ds) : a = b := by
  rw [← xor_eq_zero_iff, ← feed_xor rfl, zipWith_xor_self] at h
  exact xor_eq_zero_iff.1 (feed_zero_inj hw hp h)

def load (w : ℕ) : List Bool → BitVec w
  | [] => 0#w
  | d :: ds => (if d then BitVec.twoPow w (w - 1) else 0#w) ^^^ load w ds >>> 1

theorem load_lsb {i : ℕ} (h : i + ms.length < w) : (load w ms).getLsbD i = false := by
  induction ms generalizing i with
  | nil => exact BitVec.getLsbD_zero
  | cons m ms ih =>
    rw [List.length_cons] at h
    have htop : (if m then BitVec.twoPow w (w - 1) else 0#w).getLsbD i = false := by
      split
      · rw [BitVec.getLsbD_twoPow, decide_eq_false (by omega : ¬w - 1 = i), Bool.and_false]
      · exact BitVec.getLsbD_zero
    rw [load, BitVec.getLsbD_xor, htop, BitVec.getLsbD_ushiftRight, ih (by omega), Bool.xor_false]

theorem feed_load (h : ms.length ≤ w) :
    feed poly c ms = feed poly (c ^^^ load w ms) (List.replicate ms.length false) := by
  induction ms generalizing c with
  | nil => rw [load, BitVec.xor_zero]; rfl
  | cons m ms ih =>
    rw [List.length_cons] at h
    have hmsb : (load w ms >>> 1).msb = false := by simp
    have hback : load w ms >>> 1 <<< 1 = load w ms := by
      refine BitVec.eq_of_getLsbD_eq fun i hi ↦ ?_
      rcases i with _ | i
      · rw [lsb_shiftLeft, load_lsb (by omega)]
      · simp [hi, Nat.add_comm]
    have henter : step poly (c ^^^ if m then BitVec.twoPow w (w - 1) else 0#w) false =
        step poly c m := by
      cases m with
      | false => rw [if_neg Bool.false_ne_true, BitVec.xor_zero]
      | true =>
        have htop : (BitVec.twoPow w (w - 1)).msb = true := by
          rw [BitVec.msb_eq_getLsbD_last, BitVec.getLsbD_twoPow]
          simp
          omega
        have hout : BitVec.twoPow w (w - 1) <<< 1 = 0#w := by
          refine BitVec.eq_of_getLsbD_eq fun i hi ↦ ?_
          rcases i with _ | i
          · rw [lsb_shiftLeft, BitVec.getLsbD_zero]
          · simp
            omega
        rw [if_pos rfl, step, step, BitVec.shiftLeft_xor_distrib, hout, BitVec.xor_zero,
          BitVec.msb_xor, htop, Bool.xor_false]
    rw [feed_cons, ih (by omega), load, List.length_cons, List.replicate_succ, feed_cons]
    congr 1
    have hshift : step poly (load w ms >>> 1) false = load w ms := by
      rw [step, hmsb, hback, Bool.xor_false, if_neg Bool.false_ne_true, BitVec.xor_zero]
    rw [← BitVec.xor_assoc, ← Bool.xor_false false, step_xor, henter, hshift]

theorem load_ne_zero (hlen : ms.length ≤ w) (h : true ∈ ms) : load w ms ≠ 0#w := by
  induction ms with
  | nil => cases h
  | cons m ms ih =>
    rw [List.length_cons] at hlen
    intro h0
    cases m with
    | true =>
      have hbit := congrArg (BitVec.getLsbD · (w - 1)) h0
      simp [load, show w - 1 < w by omega, show w ≤ 1 + (w - 1) by omega] at hbit
    | false =>
      refine ih (by omega) (by simpa using h) (BitVec.eq_of_getLsbD_eq fun i hi ↦ ?_)
      rcases i with _ | i
      · rw [load_lsb (by omega), BitVec.getLsbD_zero]
      · have hbit := congrArg (BitVec.getLsbD · i) h0
        simpa [load, Nat.add_comm] using hbit

theorem eq_of_zipWith_xor (h : ms.length = ns.length) (hnone : true ∉ List.zipWith xor ms ns) :
    ms = ns := by
  induction ms generalizing ns with
  | nil => exact (List.eq_nil_of_length_eq_zero h.symm).symm
  | cons m ms ih =>
    obtain ⟨n, ns, rfl⟩ := List.exists_cons_of_length_eq_add_one h.symm
    rw [List.zipWith_cons_cons, List.mem_cons, not_or] at hnone
    rw [ih (Nat.succ.inj h) hnone.2]
    congr 1
    cases m <;> cases n <;> simp_all

/-- Bits that differ within as many places as the remainder has lead to different remainders. -/
theorem feed_burst (hp : poly.getLsbD 0 = true) (hlen : ms.length = ns.length) (hle : ms.length ≤ w) :
    feed poly c (ps ++ ms ++ ss) = feed poly c (ps ++ ns ++ ss) ↔ ms = ns := by
  refine ⟨fun h ↦ ?_, fun h ↦ by rw [h]⟩
  by_contra hne
  have hpos : 0 < ms.length := by
    refine List.length_pos_of_ne_nil ?_
    rintro rfl
    exact hne (List.eq_nil_of_length_eq_zero hlen.symm).symm
  have hw : 0 < w := by omega
  rw [feed_append, feed_append, feed_append, feed_append] at h
  have hmid := feed_inj hw hp ss h
  rw [← xor_eq_zero_iff, ← feed_xor hlen, BitVec.xor_self] at hmid
  have hzip : (List.zipWith xor ms ns).length = ms.length := by
    rw [List.length_zipWith, hlen, Nat.min_self]
  rw [feed_load (by omega)] at hmid
  have hload := feed_zero_inj hw hp hmid
  rw [BitVec.zero_xor] at hload
  refine load_ne_zero (by omega) ?_ hload
  by_contra hnone
  exact hne (eq_of_zipWith_xor hlen hnone)

end Crc
