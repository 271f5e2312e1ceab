import QdmaTrafficGen.Cache
import QdmaTrafficGen.Clocked.SlotTable
import Mathlib.Data.Fintype.Prod
import Mathlib.Data.FinEnum

namespace QdmaTrafficGen.Cache

open Clocked

namespace Metadata

variable {m : Metadata} {t : BitVec 96} {a : Addr} {r : Rmap}

def slotOf (m : Metadata) (a : Addr) : Option Slot :=
  if (m.reverseMap a).valid then some (m.reverseMap a).slot else none

theorem slotOf_eq_some {x : Slot} :
    m.slotOf a = some x ↔ (m.reverseMap a).valid = true ∧ (m.reverseMap a).slot = x := by
  simp only [slotOf]
  split <;> simp_all

theorem slotOf_eq_none : m.slotOf a = none ↔ (m.reverseMap a).valid = false := by
  simp only [slotOf]
  split <;> simp_all

/-- The metadata is a bijection between the valid addresses and the occupied slots. -/
structure Bijection (m : Metadata) : Prop where
  bitmap : ∀ a, m.validBitmap a = true ↔ (m.reverseMap a).valid = true
  injective : ∀ a b, (m.reverseMap a).valid = true → (m.reverseMap b).valid = true → a ≠ b →
    (m.reverseMap a).slot ≠ (m.reverseMap b).slot
  occupied : ∀ x, m.valid x = true ↔
    ∃! a, (m.reverseMap a).valid = true ∧ (m.reverseMap a).slot = x

theorem bijection_iff : m.Bijection ↔
    (∀ a, m.validBitmap a = (m.reverseMap a).valid) ∧ SlotTable m.slotOf m.valid := by
  constructor
  · intro h
    refine ⟨fun a ↦ Bool.eq_iff_iff.mpr (h.bitmap a), ?_, ?_⟩
    · intro a b x ha hb
      rw [slotOf_eq_some] at ha hb
      by_contra hab
      exact h.injective a b ha.1 hb.1 hab (ha.2.trans hb.2.symm)
    · intro x
      rw [h.occupied]
      simp only [slotOf_eq_some]
      refine ⟨fun ⟨a, ha, _⟩ ↦ ⟨a, ha⟩, fun ⟨a, ha⟩ ↦ ⟨a, ha, fun b hb ↦ ?_⟩⟩
      by_contra hba
      exact h.injective b a hb.1 ha.1 hba (hb.2.trans ha.2.symm)
  · rintro ⟨hm, ht⟩
    refine ⟨fun a ↦ by rw [hm], ?_, ?_⟩
    · intro a b ha hb hab hs
      exact hab (ht.injective a b _ (slotOf_eq_some.mpr ⟨ha, rfl⟩)
        (slotOf_eq_some.mpr ⟨hb, hs.symm⟩))
    · intro x
      simp only [← slotOf_eq_some]
      exact ⟨ht.exists_unique, fun ⟨a, ha, _⟩ ↦ ht.taken_of_slot ha⟩

theorem Bijection.table (h : m.Bijection) : SlotTable m.slotOf m.valid := (bijection_iff.mp h).2

theorem Bijection.slot_none (h : m.Bijection) (ha : m.validBitmap a = false) :
    m.slotOf a = none := by
  rw [slotOf_eq_none, ← (bijection_iff.mp h).1, ha]

theorem slotOf_install (hr : r.valid = true) :
    (m.install a r).slotOf = Function.update m.slotOf a (some r.slot) := by
  funext b
  by_cases hb : b = a
  · subst hb
    simp [slotOf, install, hr]
  · simp [slotOf, install, Function.update_of_ne hb]

theorem slotOf_drop : (m.drop a).slotOf = Function.update m.slotOf a none := by
  funext b
  by_cases hb : b = a
  · subst hb
    simp [slotOf, drop]
  · simp [slotOf, drop, Function.update_of_ne hb]

theorem bijection_install (h : m.Bijection) (hr : r.valid = true) (ha : m.slotOf a = none) :
    (m.install a r).Bijection ↔ m.valid r.slot = false := by
  rw [← h.table.assign_iff ha r.slot, bijection_iff, slotOf_install hr]
  refine ⟨And.right, fun ht ↦ ⟨fun b ↦ ?_, ht⟩⟩
  by_cases hb : b = a
  · subst hb
    simp [install, hr]
  · simp [install, Function.update_of_ne hb, (bijection_iff.mp h).1]

theorem bijection_drop (h : m.Bijection) (a : Addr) : (m.drop a).Bijection := by
  rw [bijection_iff, slotOf_drop]
  refine ⟨fun b ↦ ?_, ?_⟩
  · by_cases hb : b = a
    · subst hb
      simp [drop]
    · simp [drop, Function.update_of_ne hb, (bijection_iff.mp h).1]
  · cases ha : (m.reverseMap a).valid with
    | true =>
      simpa only [drop, ha, if_true] using h.table.release (slotOf_eq_some.mpr ⟨ha, rfl⟩)
    | false =>
      have hn : Function.update m.slotOf a none = m.slotOf :=
        Function.update_eq_self_iff.mpr (slotOf_eq_none.mpr ha).symm
      simpa only [drop, ha, hn, Bool.false_eq_true, if_false] using h.table

theorem drop_install {m : Metadata} {a : Addr} {r : Rmap} (hr : r.valid = true)
    (ha : m.validBitmap a = false) (hx : m.valid r.slot = false) :
    (m.install a r).drop a =
      { m with
        tcbAlloc := (m.install a r).tcbAlloc
        reverseMap := Function.update m.reverseMap a { r with valid := false } } := by
  have hb : Function.update m.validBitmap a false = m.validBitmap := by
    rw [← ha, Function.update_eq_self]
  have hv : Function.update m.valid r.slot false = m.valid := by
    rw [← hx, Function.update_eq_self]
  simp [drop, install, hr, hb, hv]

theorem mem_addrs (a : Addr) : a ∈ addrs :=
  List.mem_map.mpr ⟨a.toNat, List.mem_range.mpr a.isLt, by simp⟩

theorem bitmapFull_iff : m.bitmapFull = true ↔ ∀ a, m.validBitmap a = true := by
  simp only [bitmapFull, List.all_eq_true]
  exact ⟨fun h a ↦ h a (mem_addrs a), fun h a _ ↦ h a⟩

theorem freeBitmap_invalid (h : m.bitmapFull = false) : m.validBitmap m.freeBitmap = false := by
  have hex : ∃ a ∈ addrs, (!m.validBitmap a) = true := by
    by_contra hn
    have hall : ∀ a, m.validBitmap a = true := by
      intro a
      by_contra ha
      exact hn ⟨a, mem_addrs a, by simpa using ha⟩
    rw [bitmapFull_iff.mpr hall] at h
    exact Bool.noConfusion h
  simpa only [freeBitmap, Bool.not_eq_true'] using lastWhere_spec hex

theorem freeL_free (h : m.anyFreeL t = true) : m.valid (m.leftEntry t).slot = false := by
  simpa [leftEntry, Rmap.slot, freeLOneHot, freeL] using lastWhere_ways h

theorem freeR_free (h : m.anyFreeR t = true) : m.valid (m.rightEntry t).slot = false := by
  simpa [rightEntry, Rmap.slot, freeROneHot, freeR] using lastWhere_ways h

theorem allocate_recycled (h₆₃ : m.tcbAlloc = 63) (hf : m.bitmapFull = false) :
    m.allocate t =
      some (m.freeBitmap, { m.reverseMap m.freeBitmap with valid := true, side := true }) := by
  simp [allocate, h₆₃, hf]

theorem allocate_fresh (hc : ¬(m.tcbAlloc = 63 ∧ m.bitmapFull = false))
    (h : m.allocate t = some (a, r)) :
    a = m.tcbAlloc ∧ ((m.anyFreeL t = true ∧ r = m.leftEntry t) ∨
      (m.anyFreeR t = true ∧ r = m.rightEntry t)) := by
  simp only [allocate] at h
  split_ifs at h with h₁ h₂ <;> simp_all

theorem allocate_fresh_free (hc : ¬(m.tcbAlloc = 63 ∧ m.bitmapFull = false))
    (h : m.allocate t = some (a, r)) : r.valid = true ∧ m.valid r.slot = false := by
  obtain ⟨-, ⟨hf, rfl⟩ | ⟨hf, rfl⟩⟩ := allocate_fresh hc h
  · exact ⟨rfl, freeL_free hf⟩
  · exact ⟨rfl, freeR_free hf⟩

/-- Until `tcb_alloc` saturates, the addresses from it on have never been used. -/
def Unused (m : Metadata) : Prop :=
  m.tcbAlloc ≠ 63 → ∀ a, m.tcbAlloc ≤ a → m.validBitmap a = false

theorem unused_miss (h : m.Unused) (t : BitVec 96) : (m.miss t).Unused := by
  simp only [miss]
  cases ha : m.allocate t with
  | none => exact h
  | some e =>
    obtain ⟨a, r⟩ := e
    intro hn b hb
    by_cases h₆₃ : m.tcbAlloc = 63
    · simp [install, h₆₃] at hn
    · have haa := (allocate_fresh (fun hc ↦ h₆₃ hc.1) ha).1
      simp only [install, if_neg h₆₃] at hb ⊢
      have hlt : m.tcbAlloc < b := by bv_omega
      rw [Function.update_of_ne (by bv_omega)]
      exact h h₆₃ b (by bv_omega)

theorem unused_drop (h : m.Unused) (a : Addr) : (m.drop a).Unused := by
  intro hn b hb
  by_cases hba : b = a
  · subst hba
    simp [drop]
  · simpa [drop, Function.update_of_ne hba] using h hn b hb

/-- A miss of the saturated cache that takes over a slot of somebody else: the slot that the
recycled address had in its last use is occupied. -/
def TakesOver (m : Metadata) : Prop :=
  m.tcbAlloc = 63 ∧ m.bitmapFull = false ∧ m.valid (m.reverseMap m.freeBitmap).slot = true

instance : Decidable m.TakesOver := inferInstanceAs (Decidable (_ ∧ _ ∧ _))

theorem miss_bijection_iff (hu : m.Unused) (h : m.Bijection) (t : BitVec 96) :
    (m.miss t).Bijection ↔ ¬m.TakesOver := by
  by_cases hc : m.tcbAlloc = 63 ∧ m.bitmapFull = false
  · rw [miss, allocate_recycled hc.1 hc.2, bijection_install h rfl
      (h.slot_none (freeBitmap_invalid hc.2))]
    simp [TakesOver, hc, Rmap.slot]
  · have hno : ¬m.TakesOver := fun ht ↦ hc ⟨ht.1, ht.2.1⟩
    simp only [hno, not_false_eq_true, iff_true]
    simp only [miss]
    cases ha : m.allocate t with
    | none => exact h
    | some e =>
      obtain ⟨a, r⟩ := e
      obtain ⟨hr, hfree⟩ := allocate_fresh_free hc ha
      obtain ⟨rfl, -⟩ := allocate_fresh hc ha
      by_cases h₆₃ : m.tcbAlloc = 63
      · -- all 64 addresses are valid, so no slot can be free
        have hfull : m.bitmapFull = true := by
          by_contra hf
          exact hc ⟨h₆₃, by simpa using hf⟩
        have hall := h.table.all_taken (by decide) (fun b ↦ by
          have hb := (h.bitmap b).mp (bitmapFull_iff.mp hfull b)
          simp [slotOf, hb]) r.slot
        rw [hfree] at hall
        exact Bool.noConfusion hall
      · exact (bijection_install h hr (h.slot_none (hu h₆₃ _ (BitVec.le_refl _)))).mpr hfree

end Metadata

def State.TakesOver (s : State) (i : Input) : Prop :=
  i.invalidate = false ∧ s.readMiss i = true ∧ s.toMetadata.TakesOver

theorem unused_next (s : State) (i : Input) (h : s.Unused) : (s.next i).Unused := by
  simp only [State.next, State.metadataNext]
  split_ifs
  · exact Metadata.unused_drop h _
  · exact Metadata.unused_miss h _
  · exact h

theorem unused_run (u : ℕ → Input) (n : ℕ) : (circuit.run u n).Unused :=
  Circuit.invariant (I := fun s : State ↦ s.Unused) (fun _ _ _ ↦ rfl) unused_next n

theorem next_bijection_iff (s : State) (i : Input) (hu : s.Unused)
    (h : s.toMetadata.Bijection) :
    (s.next i).toMetadata.Bijection ↔ ¬s.TakesOver i := by
  simp only [State.next, State.metadataNext, State.TakesOver]
  split_ifs with hi hm
  · simpa [hi] using Metadata.bijection_drop h _
  · simpa [hi, hm] using Metadata.miss_bijection_iff hu h _
  · simpa [hm] using h

theorem reset_bijection : ({} : Metadata).Bijection := by
  rw [Metadata.bijection_iff]
  exact ⟨fun _ ↦ rfl, SlotTable.nothing⟩

/-- A run keeps the metadata a bijection for exactly as long as no recycled address takes over a
slot that is occupied. -/
theorem bijection_run_iff (u : ℕ → Input) (n : ℕ) :
    (∀ k ≤ n, (circuit.run u k).toMetadata.Bijection) ↔
      ∀ k < n, ¬(circuit.run u k).TakesOver (u k) :=
  stepwise_iff (I := fun k ↦ (circuit.run u k).toMetadata.Bijection) reset_bijection
    (fun k h ↦ next_bijection_iff _ _ (unused_run u k) h) n

/-- One tuple connects and disconnects 62 times and connects once more, then another one arrives
twice. -/
def churn (n : ℕ) : Input :=
  if n < 186 then
    if n % 3 = 0 then { read := true }
    else if n % 3 = 1 then {}
    else { invalidate := true, invalidateAddr := BitVec.ofNat 6 (n / 3) }
  else if n = 186 then { read := true }
  else if n = 189 ∨ n = 192 then { read := true, inputTuple := 1 }
  else if n = 190 ∨ n = 193 then { inputTuple := 1 }
  else {}

def churned (k : ℕ) : Metadata where
  tcbAlloc := BitVec.ofNat 6 k
  reverseMap a := if a.toNat < k then ⟨false, true, 3, 0⟩ else {}

theorem State.readMiss_of_free {s : State} {i : Input} (hd : s.readD = true)
    (hL : ∀ w, s.valid (w, setL i.inputTuple) = false)
    (hR : ∀ w, s.valid (w, setR i.inputTuple) = false) : s.readMiss i = true := by
  simp [readMiss, hd, anyHitL, anyHitR, anyWay, hitLOneHot, hitROneHot, hL, hR]

theorem churned_miss {k : ℕ} (hk : k < 63) :
    (churned k).miss 0 = (churned k).install (BitVec.ofNat 6 k) ⟨true, true, 3, 0⟩ := by
  have hne : BitVec.ofNat 6 k ≠ 63#6 := by bv_omega
  have hL : setL 0#96 = 0#4 := by decide +kernel
  have ha : (churned k).allocate 0 = some (BitVec.ofNat 6 k, ⟨true, true, 3, 0⟩) := by
    simp [Metadata.allocate, churned, hne, Metadata.anyFreeL, Metadata.anyFreeR, anyWay,
      Metadata.freeLOneHot, Metadata.freeROneHot, Metadata.freeLCnt, Metadata.freeRCnt,
      Metadata.leftEntry, Metadata.freeL, ways, lastWhere, hL]
  simp only [Metadata.miss, ha]

theorem churned_round {k : ℕ} (hk : k < 62) :
    ((churned k).miss 0).drop (BitVec.ofNat 6 k) = churned (k + 1) := by
  have hne : BitVec.ofNat 6 k ≠ 63#6 := by bv_omega
  rw [churned_miss (by omega), Metadata.drop_install rfl rfl rfl]
  simp only [churned, Metadata.install, Metadata.mk.injEq, true_and]
  refine ⟨by simp [hne, BitVec.ofNat_add], funext fun a ↦ ?_⟩
  by_cases ha : a = BitVec.ofNat 6 k
  · subst ha
    simp [Nat.mod_eq_of_lt (by omega : k < 64)]
  · rw [Function.update_of_ne ha]
    have hak : a.toNat ≠ k := fun h ↦ ha (by bv_omega)
    simp only [show a.toNat < k + 1 ↔ a.toNat < k by omega]

theorem metadata_quiet {s : State} {i : Input} (hd : s.readD = false)
    (hi : i.invalidate = false) : (s.next i).toMetadata = s.toMetadata := by
  simp [State.next, State.metadataNext, State.readMiss, hd, hi]

theorem metadata_missed {s : State} {i : Input} (hm : s.readMiss i = true)
    (hi : i.invalidate = false) : (s.next i).toMetadata = s.miss i.inputTuple := by
  simp [State.next, State.metadataNext, hm, hi]

theorem read_empty {s : State} {t : BitVec 96} (hd : s.readD = false)
    (hL : ∀ w, s.valid (w, setL t) = false) (hR : ∀ w, s.valid (w, setR t) = false) :
    ((s.next { read := true, inputTuple := t }).next { inputTuple := t }).toMetadata = s.miss t := by
  have hm : (s.next { read := true, inputTuple := t }).toMetadata = s.toMetadata :=
    metadata_quiet hd rfl
  rw [← hm]
  exact metadata_missed (State.readMiss_of_free rfl (by rw [hm]; exact hL) (by rw [hm]; exact hR)) rfl

theorem run_churned (k : ℕ) (hk : k ≤ 62) :
    (circuit.run churn (3 * k)).toMetadata = churned k ∧
      (circuit.run churn (3 * k)).readD = false := by
  induction k with
  | zero => exact ⟨rfl, rfl⟩
  | succ k ih =>
    obtain ⟨hm, hd⟩ := ih (by omega)
    have h₀ : churn (3 * k) = { read := true } := by
      simp only [churn]
      rw [if_pos (by omega), if_pos (by omega)]
    have h₁ : churn (3 * k + 1) = {} := by
      simp only [churn]
      rw [if_pos (by omega), if_neg (by omega), if_pos (by omega)]
    have h₂ : churn (3 * k + 2) =
        { invalidate := true, invalidateAddr := BitVec.ofNat 6 k } := by
      simp only [churn]
      rw [if_pos (by omega), if_neg (by omega), if_neg (by omega),
        show (3 * k + 2) / 3 = k by omega]
    have hm₂ : (circuit.run churn (3 * k + 2)).toMetadata = (churned k).miss 0 := by
      rw [run_succ, run_succ, h₀, h₁, ← hm]
      exact read_empty hd (by simp [hm, churned]) (by simp [hm, churned])
    rw [show 3 * (k + 1) = 3 * k + 2 + 1 by omega, run_succ, h₂]
    refine ⟨?_, rfl⟩
    rw [← churned_round (by omega), ← hm₂]
    rfl

theorem run_saturated : (circuit.run churn 189).toMetadata = (churned 62).miss 0 := by
  obtain ⟨hm, hd⟩ := run_churned 62 le_rfl
  have h : (circuit.run churn 188).toMetadata = (churned 62).miss 0 := by
    rw [← hm, run_succ, run_succ]
    exact read_empty hd (by simp [hm, churned]) (by simp [hm, churned])
  rw [← h, run_succ]
  exact metadata_quiet (by rw [run_succ]; rfl) rfl

theorem run_churn_end : ∃ s : State, circuit.run churn 193 =
    (s.next {}).next { read := true, inputTuple := 1 } ∧
      (s.next {}).toMetadata = ((churned 62).miss 0).miss 1 := by
  refine ⟨_, by rw [run_succ, run_succ]; rfl, ?_⟩
  have h : (circuit.run churn 191).toMetadata = ((churned 62).miss 0).miss 1 := by
    rw [← run_saturated, run_succ, run_succ]
    exact read_empty (by rw [run_succ]; rfl) (by rw [run_saturated]; decide +kernel)
      (by rw [run_saturated]; decide +kernel)
  rw [← h]
  exact metadata_quiet (by rw [run_succ]; rfl) rfl

theorem churn_takes_over : (circuit.run churn 193).TakesOver (churn 193) := by
  obtain ⟨s, hs, hm⟩ := run_churn_end
  have hm' : (circuit.run churn 193).toMetadata = ((churned 62).miss 0).miss 1 := by
    rw [hs, ← hm]
    exact metadata_quiet rfl rfl
  refine ⟨rfl, State.readMiss_of_free (by rw [hs]; rfl) ?_ ?_, ?_⟩
  · rw [hm']
    decide +kernel
  · rw [hm']
    decide +kernel
  · rw [hm']
    decide +kernel

/-- The metadata stops being a bijection after 64 connections of two tuples. -/
theorem churn_not_bijection : ¬∀ k, (circuit.run churn k).toMetadata.Bijection := by
  intro h
  have hn := h (193 + 1)
  rw [run_succ] at hn
  exact (next_bijection_iff _ _ (unused_run churn 193) (h 193)).mp hn churn_takes_over

end QdmaTrafficGen.Cache
