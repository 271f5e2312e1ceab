import QdmaTrafficGen.CacheMetadata

namespace QdmaTrafficGen.Cache

open Clocked

namespace State

variable (s : State) (i : Input)

/-- One of the eight ways that the tuple can be stored in is free. -/
def FindsWay : Prop :=
  ∃ w, s.valid (w, setL i.inputTuple) = false ∨ s.valid (w, setR i.inputTuple) = false

instance : Decidable (s.FindsWay i) := inferInstanceAs (Decidable (∃ _, _ ∨ _))

def written : Option (Slot × BitVec 32) := (s.writeL i).or (s.writeR i)

/-- Who has been given which address: a miss that finds a way makes its tuple live under the
address that the cache reports for it, until that address is invalidated. -/
def liveNext (live : BitVec 96 → Option Addr) : BitVec 96 → Option Addr :=
  if i.invalidate then fun t ↦ (live t).filter (· ≠ i.invalidateAddr)
  else if s.readMiss i = true ∧ s.FindsWay i then
    Function.update live i.inputTuple (some (s.next i).tcbAddr)
  else live

variable {s i}

theorem no_hits (h : s.readMiss i = true) : s.anyHitL i = false ∧ s.anyHitR i = false := by
  simp only [readMiss, Bool.and_eq_true, Bool.not_eq_true'] at h
  exact ⟨h.1.2, h.2⟩

theorem tcbAddr_miss (h : s.readMiss i = true) : (s.next i).tcbAddr = s.tcbAlloc := by
  simp [next, no_hits h, h]

theorem tcbAddrValid_next : (s.next i).tcbAddrValid = s.reqValid := by
  simp only [next]
  cases s.reqValid <;> simp

theorem written_invalidate (h : i.invalidate = true) : s.written i = none := by
  simp [written, writeL, writeR, h]

theorem written_hit (h : s.readMiss i = false) : s.written i = none := by
  simp [written, writeL, writeR, h]

theorem written_allocate (hm : s.readMiss i = true) (hi : i.invalidate = false)
    (h₆₃ : s.tcbAlloc ≠ 63) : s.written i = (s.allocate i.inputTuple).map fun e ↦
      (e.2.slot, word (if e.2.side then tagL i.inputTuple else tagR i.inputTuple) e.1) := by
  simp only [written, writeL, writeR, hm, hi, h₆₃, Metadata.allocate, Bool.not_false, Bool.and_self,
    if_true, if_false]
  split_ifs <;> simp_all [Metadata.leftEntry, Metadata.rightEntry, Rmap.slot]

theorem written_saturated (h₆₃ : s.tcbAlloc = 63) {x : Slot} {d : BitVec 32}
    (h : s.written i = some (x, d)) : wordAddr d = 0 := by
  simp only [written, writeL, writeR, h₆₃, if_true] at h
  split_ifs at h <;> simp_all <;> simp [← h.2]

theorem findsWay_iff : s.FindsWay i ↔ s.anyFreeL i.inputTuple = true ∨
    s.anyFreeR i.inputTuple = true := by
  simp only [Metadata.anyFreeL, Metadata.anyFreeR, anyWay_iff, Metadata.freeLOneHot,
    Metadata.freeROneHot, Bool.not_eq_true', FindsWay, exists_or]

theorem allocate_isSome_iff (h₆₃ : s.tcbAlloc ≠ 63) :
    (s.allocate i.inputTuple).isSome = true ↔ s.FindsWay i := by
  simp only [Metadata.allocate, h₆₃, findsWay_iff, if_false]
  split_ifs <;> simp_all

theorem allocate_eq_none_iff (h₆₃ : s.tcbAlloc ≠ 63) :
    s.allocate i.inputTuple = none ↔ ¬s.FindsWay i := by
  rw [← allocate_isSome_iff h₆₃, Bool.not_eq_true, Option.isSome_eq_false_iff, Option.isNone_iff_eq_none]

theorem bram_next : (s.next i).bram =
    match s.written i with
    | some (x, d) => Function.update s.bram x d
    | none => s.bram := by
  simp only [next, bramNext, written]
  cases hL : s.writeL i with
  | none => cases s.writeR i <;> rfl
  | some e =>
    have hR : s.writeR i = none := by
      simp only [writeL] at hL
      simp only [writeR]
      split_ifs at hL ⊢ <;> simp_all
    simp [hR]

end State

def live (u : ℕ → Input) : ℕ → BitVec 96 → Option Addr
  | 0 => fun _ ↦ none
  | n + 1 => (circuit.run u n).liveNext (u n) (live u n)

def LiveBelow (s : State) (live : BitVec 96 → Option Addr) : Prop :=
  s.tcbAlloc ≠ 63 → ∀ t a, live t = some a → a < s.tcbAlloc

theorem liveBelow_next {s : State} {i : Input} {live : BitVec 96 → Option Addr}
    (h : LiveBelow s live) : LiveBelow (s.next i) (s.liveNext i live) := by
  simp only [State.liveNext]
  split_ifs with hi hm
  · intro hn t a ha
    have hal : (s.next i).tcbAlloc = s.tcbAlloc := by
      simp [State.next, State.metadataNext, hi, Metadata.drop]
    rw [hal] at hn ⊢
    exact h hn t a (Option.filter_eq_some_iff.mp ha).1
  · have hmd : (s.next i).toMetadata = s.miss i.inputTuple := metadata_missed hm.1 (by simpa using hi)
    intro hn t a ha
    by_cases h₆₃ : s.tcbAlloc = 63
    · rw [hmd] at hn
      simp only [Metadata.miss] at hn
      cases hal : s.allocate i.inputTuple <;> simp [hal, Metadata.install, h₆₃] at hn
    · obtain ⟨⟨a', r⟩, he⟩ := Option.isSome_iff_exists.mp ((State.allocate_isSome_iff h₆₃).mpr hm.2)
      have hal : (s.next i).tcbAlloc = s.tcbAlloc + 1 := by
        rw [hmd]
        simp only [Metadata.miss, he, Metadata.install, if_neg h₆₃]
      rw [hal]
      by_cases ht : t = i.inputTuple
      · subst ht
        rw [Function.update_self, State.tcbAddr_miss hm.1] at ha
        obtain rfl := Option.some.inj ha
        bv_omega
      · rw [Function.update_of_ne ht] at ha
        have := h h₆₃ t a ha
        bv_omega
  · intro hn t a ha
    have hal : (s.next i).tcbAlloc = s.tcbAlloc := by
      simp only [State.next, State.metadataNext, hi, Bool.false_eq_true, if_false]
      split_ifs with hr
      · by_cases h₆₃ : s.tcbAlloc = 63
        · simp only [Metadata.miss]
          cases hal : s.allocate i.inputTuple <;> simp [Metadata.install, h₆₃]
        · have hno := (State.allocate_eq_none_iff h₆₃).mpr fun hf ↦ hm ⟨hr, hf⟩
          simp [Metadata.miss, hno]
      · rfl
    rw [hal] at hn ⊢
    exact h hn t a ha

theorem liveBelow_run (u : ℕ → Input) (n : ℕ) : LiveBelow (circuit.run u n) (live u n) := by
  induction n with
  | zero =>
    intro _ t a ha
    simp [live] at ha
  | succ n ih => exact liveBelow_next ih

theorem reqValid_run (u : ℕ → Input) (n : ℕ) :
    (circuit.run u n).reqValid = (circuit.run u n).readD := by
  cases n <;> rfl

/-- The miss in cycle `n` hands out an address of its own: if it is answered, the address reported
is the one whose valid bit and reverse-map entry it sets, the BRAM word it writes lies in the slot
of that entry and carries that address, and no other live tuple has been given the address. -/
def HandsOutOwn (u : ℕ → Input) (n : ℕ) : Prop :=
  let s := circuit.run u n
  let s' := circuit.run u (n + 1)
  s'.tcbAddrValid = true →
    ∃ r d, s.allocate (u n).inputTuple = some (s'.tcbAddr, r) ∧
      s'.validBitmap s'.tcbAddr = true ∧ s'.reverseMap s'.tcbAddr = r ∧ r.valid = true ∧
      s.written (u n) = some (r.slot, d) ∧ wordAddr d = s'.tcbAddr ∧
      ∀ t, t ≠ (u n).inputTuple → live u n t ≠ some s'.tcbAddr

section

variable {u : ℕ → Input} {n : ℕ} (hm : (circuit.run u n).readMiss (u n) = true)

include hm

theorem answered : (circuit.run u (n + 1)).tcbAddrValid = true := by
  rw [run_succ]
  refine State.tcbAddrValid_next.trans ?_
  rw [reqValid_run]
  simp only [State.readMiss, Bool.and_eq_true] at hm
  exact hm.1.1

theorem handsOutOwn_unsaturated (h : HandsOutOwn u n) : (circuit.run u n).tcbAlloc ≠ 63 := by
  obtain ⟨r, d, -, -, -, -, hw, hd, -⟩ := h (answered hm)
  intro h₆₃
  rw [run_succ, State.tcbAddr_miss hm, h₆₃, State.written_saturated h₆₃ hw] at hd
  exact absurd hd (by decide)

theorem handsOutOwn_findsWay (h : HandsOutOwn u n) : (circuit.run u n).FindsWay (u n) := by
  have h₆₃ := handsOutOwn_unsaturated hm h
  obtain ⟨r, d, ha, -⟩ := h (answered hm)
  rw [← State.allocate_isSome_iff h₆₃, ha]
  rfl

theorem handsOutOwn_of_findsWay (hi : (u n).invalidate = false)
    (h₆₃ : (circuit.run u n).tcbAlloc ≠ 63) (hf : (circuit.run u n).FindsWay (u n)) :
    HandsOutOwn u n := by
  intro _
  obtain ⟨⟨a, r⟩, he⟩ := Option.isSome_iff_exists.mp ((State.allocate_isSome_iff h₆₃).mpr hf)
  have hc : ¬((circuit.run u n).tcbAlloc = 63 ∧ (circuit.run u n).bitmapFull = false) :=
    fun hc ↦ h₆₃ hc.1
  obtain ⟨rfl, -⟩ := Metadata.allocate_fresh hc he
  have hr := (Metadata.allocate_fresh_free hc he).1
  have hmd := metadata_missed hm hi
  simp only [Metadata.miss, he] at hmd
  rw [run_succ, State.tcbAddr_miss hm, hmd]
  refine ⟨r, word (if r.side then tagL (u n).inputTuple else tagR (u n).inputTuple) _, he,
    by simp [Metadata.install], by simp [Metadata.install], hr, ?_, wordAddr_word _ _, ?_⟩
  · rw [State.written_allocate hm hi h₆₃, he]
    rfl
  · intro t _ ht
    exact absurd (liveBelow_run u n h₆₃ t _ ht) (BitVec.lt_irrefl _)

end

/-- A miss hands out an address of its own exactly when `tcb_alloc` has not saturated and the
tuple still finds a way. -/
theorem handsOutOwn_iff (u : ℕ → Input) (n : ℕ) (hm : (circuit.run u n).readMiss (u n) = true)
    (hi : (u n).invalidate = false) :
    HandsOutOwn u n ↔
      (circuit.run u n).tcbAlloc ≠ 63 ∧ (circuit.run u n).FindsWay (u n) :=
  ⟨fun h ↦ ⟨handsOutOwn_unsaturated hm h, handsOutOwn_findsWay hm h⟩,
    fun h ↦ handsOutOwn_of_findsWay hm hi h.1 h.2⟩

def three (n : ℕ) : Input := { read := n % 3 == 0, inputTuple := BitVec.ofNat 96 (n / 3) }

theorem handsOutOwn_third : (circuit.run three 7).validBitmap 0 = true ∧
    (circuit.run three 7).validBitmap 1 = true ∧ HandsOutOwn three 7 :=
  ⟨by decide +kernel, by decide +kernel,
    (handsOutOwn_iff three 7 (by decide +kernel) rfl).mpr ⟨by decide +kernel, by decide +kernel⟩⟩

/-- The first miss after saturation is told address 63, but the word it writes carries address 0. -/
theorem churn_not_handsOutOwn : ¬∀ n, (circuit.run churn n).readMiss (churn n) = true →
    (churn n).invalidate = false → HandsOutOwn churn n := by
  intro h
  have hm : (circuit.run churn (189 + 1)).toMetadata = (churned 62).miss 0 := by
    rw [← run_saturated, run_succ]
    exact metadata_quiet (by rw [run_succ]; rfl) rfl
  have hr : (circuit.run churn (189 + 1)).readMiss (churn (189 + 1)) = true := by
    refine State.readMiss_of_free (by rw [run_succ]; rfl) ?_ ?_
    · rw [hm]
      decide +kernel
    · rw [hm]
      decide +kernel
  refine handsOutOwn_unsaturated hr (h (189 + 1) hr rfl) ?_
  rw [hm]
  decide +kernel

end QdmaTrafficGen.Cache
