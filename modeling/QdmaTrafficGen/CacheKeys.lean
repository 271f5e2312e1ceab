import QdmaTrafficGen.CacheLookup

namespace QdmaTrafficGen.Cache

open Clocked Toeplitz

/-- The live tuple `t` is stored under a key that `v` has as well. -/
def Confuses (s : State) (live : BitVec 96 → Option Addr) (t v : BitVec 96) : Prop :=
  ∃ a x tag, live t = some a ∧ s.slotOf a = some x ∧ s.bram x = word tag a ∧
    HasKey t (x.2, tag) ∧ HasKey v (x.2, tag)

section

variable {S : Set (BitVec 96)} {s : State} {i : Input} {live : BitVec 96 → Option Addr}

theorem matches_of_hitL (hf : Fresh s i) {w : Way} (hw : s.hitLOneHot i w = true) :
    s.valid (w, setL i.inputTuple) = true ∧
      HasKey i.inputTuple (setL i.inputTuple, wordTag (s.bram (w, setL i.inputTuple))) := by
  simp only [State.hitLOneHot, Bool.and_eq_true, beq_iff_eq] at hw
  rw [← hf.left, hw.2]
  exact ⟨hw.1, .inl rfl⟩

theorem matches_of_hitR (hf : Fresh s i) {w : Way} (hw : s.hitROneHot i w = true) :
    s.valid (w, setR i.inputTuple) = true ∧
      HasKey i.inputTuple (setR i.inputTuple, wordTag (s.bram (w, setR i.inputTuple))) := by
  simp only [State.hitROneHot, Bool.and_eq_true, beq_iff_eq] at hw
  rw [← hf.right, hw.2]
  exact ⟨hw.1, .inr rfl⟩

theorem matches_of_hit (hf : Fresh s i) (hd : s.readD = true) (hm : s.readMiss i = false) :
    ∃ x, s.valid x = true ∧ HasKey i.inputTuple (x.2, wordTag (s.bram x)) ∧
      (s.next i).tcbAddr = wordAddr (s.bram x) := by
  cases hL : s.anyHitL i with
  | true =>
    obtain ⟨hv, hk⟩ := matches_of_hitL hf (lastWhere_ways hL)
    refine ⟨_, hv, hk, ?_⟩
    simp only [State.next, hL, if_true]
    exact congrArg wordAddr (hf.left _)
  | false =>
    have hR : s.anyHitR i = true := by simpa [State.readMiss, hd, hL] using hm
    obtain ⟨hv, hk⟩ := matches_of_hitR hf (lastWhere_ways hR)
    refine ⟨_, hv, hk, ?_⟩
    simp only [State.next, hL, hR, if_true, Bool.false_eq_true, if_false]
    exact congrArg wordAddr (hf.right _)

theorem Tracks.confuses_of_match (h : Tracks S s live) (hb : s.toMetadata.Bijection) {x : Slot}
    {v : BitVec 96} (hv : s.valid x = true) (hk : HasKey v (x.2, wordTag (s.bram x))) :
    ∃ t, Confuses s live t v ∧ live t = some (wordAddr (s.bram x)) := by
  obtain ⟨t, -, a, tag, ht, hx, hw, hkt⟩ := h.stored_of_valid hb hv
  rw [hw, wordTag_word] at hk
  rw [hw, wordAddr_word]
  exact ⟨t, ⟨a, x, tag, ht, hx, hw, hkt, hk⟩, ht⟩

theorem no_miss_of_confuses (hb : s.toMetadata.Bijection) (hf : Fresh s i) {t : BitVec 96}
    (hc : Confuses s live t i.inputTuple) : s.readMiss i = false := by
  obtain ⟨a, x, tag, -, hx, hw, -, hk⟩ := hc
  rw [← Bool.not_eq_true]
  intro hm
  have hn := State.no_hits hm
  rcases hit_of_key hb hf hx hw hk with hh | hh
  · exact Bool.noConfusion (hh.symm.trans hn.1)
  · exact Bool.noConfusion (hh.symm.trans hn.2)

end

section

variable {u : ℕ → Input} {n : ℕ}

theorem compared (hd : Served u (n + 1)) (hr : (u n).read = true) :
    Tracks Set.univ (circuit.run u (n + 1)) (live u (n + 1)) ∧
      (circuit.run u (n + 1)).toMetadata.Bijection ∧
      Fresh (circuit.run u (n + 1)) (u (n + 1)) :=
  ⟨tracks_run hd fun _ _ _ ↦ Set.mem_univ _, bijection_run fun k hk ↦ hd.below k (by omega),
    fresh_run hd hr⟩

/-- Up to saturation, a read misses exactly if no live tuple is stored under a key of the tuple that
is read, and a hit is answered with the address of a live tuple that is. -/
theorem lookup_keys (hd : Served u (n + 1)) (hr : (u n).read = true) :
    ((circuit.run u (n + 1)).readMiss (u (n + 1)) = true ↔
      ∀ t, ¬Confuses (circuit.run u (n + 1)) (live u (n + 1)) t (u n).inputTuple) ∧
    ((circuit.run u (n + 1)).readMiss (u (n + 1)) = false →
      ∃ t, Confuses (circuit.run u (n + 1)) (live u (n + 1)) t (u n).inputTuple ∧
        live u (n + 1) t = some (circuit.run u (n + 2)).tcbAddr) := by
  obtain ⟨h, hb, hf⟩ := compared hd hr
  rw [← hd.held n (by omega) hr]
  have hhit : (circuit.run u (n + 1)).readMiss (u (n + 1)) = false →
      ∃ t, Confuses (circuit.run u (n + 1)) (live u (n + 1)) t (u (n + 1)).inputTuple ∧
        live u (n + 1) t = some (circuit.run u (n + 2)).tcbAddr := by
    intro hm
    obtain ⟨x, hv, hk, ha⟩ := matches_of_hit hf hr hm
    rw [show (circuit.run u (n + 2)).tcbAddr = _ from ha]
    exact h.confuses_of_match hb hv hk
  refine ⟨⟨fun hm t hc ↦ ?_, fun hno ↦ ?_⟩, hhit⟩
  · exact Bool.noConfusion (hm.symm.trans (no_miss_of_confuses hb hf hc))
  · rw [← Bool.not_eq_false]
    intro hm
    obtain ⟨t, hc, -⟩ := hhit hm
    exact hno t hc

end

def pair (v : BitVec 96) (n : ℕ) : Input :=
  { read := n == 0 || n == 3, inputTuple := if n < 3 then 0 else v }

theorem pair_served {v : BitVec 96} (hb : ∀ k ≤ 4, (circuit.run (pair v) k).tcbAlloc ≠ 63) :
    Served (pair v) 4 := by
  refine ⟨fun k hk hr ↦ ?_, fun k hk hr ↦ ?_, hb⟩
  · match k with
    | 0 | 3 => rfl
    | 1 | 2 => exact Bool.noConfusion hr
  · match k with
    | 0 | 3 => rfl
    | 1 | 2 => exact Bool.noConfusion hr

theorem pair_misses : (circuit.run (pair 1) 4).readMiss (pair 1 4) = true ∧
    ∀ t, ¬Confuses (circuit.run (pair 1) 4) (live (pair 1) 4) t 1 := by
  have hrun : (∀ k ≤ 4, (circuit.run (pair 1) k).tcbAlloc ≠ 63) ∧
      (circuit.run (pair 1) 4).readMiss (pair 1 4) = true := by decide +kernel
  exact ⟨hrun.2, (lookup_keys (n := 3) (pair_served hrun.1) rfl).1.mp hrun.2⟩

def twin : BitVec 96 := 0x1cb1b697807d129d00000001#96

theorem hashOut_twin : hashOut1 twin = 0 ∧ hashOut2 twin = 0 := by decide +kernel

theorem hasKey_twin (t : BitVec 96) {k : BitVec 4 × BitVec 26} :
    HasKey (t ^^^ twin) k ↔ HasKey t k := by
  have h₁ : hashOut1 (t ^^^ twin) = hashOut1 t := by
    rw [hashOut1, hashOut_xor, ← hashOut1, ← hashOut1, hashOut_twin.1, BitVec.ofNat_eq_ofNat,
      BitVec.xor_zero]
  have h₂ : hashOut2 (t ^^^ twin) = hashOut2 t := by
    rw [hashOut2, hashOut_xor, ← hashOut2, ← hashOut2, hashOut_twin.2, BitVec.ofNat_eq_ofNat,
      BitVec.xor_zero]
  simp only [HasKey, setL, setR, tagL, tagR, h₁, h₂]

theorem no_miss_twin {u : ℕ → Input} {n : ℕ} (hd : Served u (n + 1)) (hr : (u n).read = true)
    {t : BitVec 96} (ht : live u (n + 1) t ≠ none) (hv : (u n).inputTuple = t ^^^ twin) :
    (circuit.run u (n + 1)).readMiss (u (n + 1)) = false := by
  obtain ⟨h, hb, hf⟩ := compared hd hr
  obtain ⟨a, ha⟩ := Option.ne_none_iff_exists'.mp ht
  obtain ⟨-, x, tag, hx, hw, hk⟩ := h.stored t a ha
  refine no_miss_of_confuses hb hf ⟨a, x, tag, ha, hx, hw, hk, ?_⟩
  rw [hd.held n (by omega) hr, hv]
  exact (hasKey_twin t).mpr hk

/-- The cache takes a tuple that it has never seen for tuple 0. -/
theorem twin_hits : ¬∀ u n t v, Served u (n + 1) → t ≠ v → live u (n + 1) t ≠ none →
    (∀ k ≤ n + 1, live u k v = none) → (u n).read = true → (u n).inputTuple = v →
      (circuit.run u (n + 1)).readMiss (u (n + 1)) = true := by
  intro h
  have hrun : (∀ k ≤ 4, (circuit.run (pair twin) k).tcbAlloc ≠ 63) ∧ live (pair twin) 4 0 ≠ none ∧
      ∀ k ≤ 4, live (pair twin) k twin = none := by decide +kernel
  obtain ⟨hb, h0, hno⟩ := hrun
  have hd := pair_served hb
  have hm := h (pair twin) 3 0 twin hd (by decide) h0 hno rfl rfl
  exact Bool.noConfusion (hm.symm.trans (no_miss_twin (n := 3) hd rfl h0 (BitVec.zero_xor).symm))

end QdmaTrafficGen.Cache
