import QdmaTrafficGen.CacheAllocation
import Mathlib.Data.Set.Basic

namespace QdmaTrafficGen.Cache

open Clocked

def HasKey (t : BitVec 96) (k : BitVec 4 × BitVec 26) : Prop :=
  k = (setL t, tagL t) ∨ k = (setR t, tagR t)

/-- Different tuples of `S` share no key, also not across the two hashes. -/
def KeysApart (S : Set (BitVec 96)) : Prop :=
  ∀ t ∈ S, ∀ t' ∈ S, ∀ k, HasKey t k → HasKey t' k → t = t'

/-- Up to cycle `n` a read has no other one right behind it, its tuple stays at the input for the
compare, and the addresses do not run out. -/
structure Served (u : ℕ → Input) (n : ℕ) : Prop where
  apart : ∀ k < n, (u k).read = true → (u (k + 1)).read = false
  held : ∀ k < n, (u k).read = true → (u (k + 1)).inputTuple = (u k).inputTuple
  below : ∀ k ≤ n, (circuit.run u k).tcbAlloc ≠ 63

theorem Served.mono {u : ℕ → Input} {m n : ℕ} (h : Served u n) (hmn : m ≤ n) : Served u m :=
  ⟨fun k hk ↦ h.apart k (hk.trans_le hmn), fun k hk ↦ h.held k (hk.trans_le hmn),
    fun k hk ↦ h.below k (hk.trans hmn)⟩

structure Disciplined (S : Set (BitVec 96)) (u : ℕ → Input) (n : ℕ) : Prop where
  spaced : ∀ j k, j < k → k ≤ n → (u j).read = true → (u k).read = true → j + 3 ≤ k
  held : ∀ k < n, (u k).read = true → (u (k + 1)).inputTuple = (u k).inputTuple
  mem : ∀ k ≤ n, (u k).read = true → (u k).inputTuple ∈ S
  calm : ∀ k ≤ n, (circuit.run u k).readMiss (u k) = true → (u k).invalidate = false
  below : ∀ k ≤ n, (circuit.run u k).tcbAlloc ≠ 63

theorem Disciplined.served {S : Set (BitVec 96)} {u : ℕ → Input} {n : ℕ} (h : Disciplined S u n) :
    Served u n := by
  refine ⟨fun k hk hr ↦ ?_, h.held, h.below⟩
  rw [← Bool.not_eq_true]
  intro hr'
  have := h.spaced k (k + 1) (by omega) (by omega) hr hr'
  omega

/-- The slots in use hold the keys and the addresses of the live tuples. -/
structure Tracks (S : Set (BitVec 96)) (s : State) (live : BitVec 96 → Option Addr) : Prop where
  stored : ∀ t a, live t = some a → t ∈ S ∧
    ∃ x tag, s.slotOf a = some x ∧ s.bram x = word tag a ∧ HasKey t (x.2, tag)
  owned : ∀ a x, s.slotOf a = some x → ∃ t, live t = some a

/-- The output registers of the BRAMs hold the words of the two sets of the tuple at the input. -/
structure Fresh (s : State) (i : Input) : Prop where
  left : ∀ w, s.doutL w = s.bram (w, setL i.inputTuple)
  right : ∀ w, s.doutR w = s.bram (w, setR i.inputTuple)

section

variable {S : Set (BitVec 96)} {s : State} {i : Input} {live : BitVec 96 → Option Addr}
  {t : BitVec 96}

theorem Tracks.stored_of_valid (h : Tracks S s live) (hb : s.toMetadata.Bijection) {x : Slot}
    (hv : s.valid x = true) : ∃ t ∈ S, ∃ a tag, live t = some a ∧ s.slotOf a = some x ∧
      s.bram x = word tag a ∧ HasKey t (x.2, tag) := by
  obtain ⟨a, ha⟩ := (hb.table.taken_iff x).mp hv
  obtain ⟨t, ht⟩ := h.owned a x ha
  obtain ⟨hm, x', tag, hx, hw, hk⟩ := h.stored t a ht
  have hxx : x = x' := Option.some.inj (ha.symm.trans hx)
  subst hxx
  exact ⟨t, hm, a, tag, ht, ha, hw, hk⟩

theorem Tracks.live_of_match (hS : KeysApart S) (h : Tracks S s live)
    (hb : s.toMetadata.Bijection) (ht : t ∈ S) {x : Slot} (hv : s.valid x = true)
    (hk : HasKey t (x.2, wordTag (s.bram x))) : live t = some (wordAddr (s.bram x)) := by
  obtain ⟨t', hm, a, tag, ht', -, hw, hk'⟩ := h.stored_of_valid hb hv
  rw [hw, wordTag_word] at hk
  rw [hw, wordAddr_word, hS t ht t' hm _ hk hk']
  exact ht'

theorem Tracks.live_of_hitL (hS : KeysApart S) (h : Tracks S s live)
    (hb : s.toMetadata.Bijection) (hf : Fresh s i) (ht : i.inputTuple ∈ S) {w : Way}
    (hw : s.hitLOneHot i w = true) : live i.inputTuple = some (wordAddr (s.doutL w)) := by
  simp only [State.hitLOneHot, Bool.and_eq_true, beq_iff_eq] at hw
  rw [hf.left] at hw ⊢
  exact h.live_of_match hS hb ht hw.1 (.inl (by rw [hw.2]))

theorem Tracks.live_of_hitR (hS : KeysApart S) (h : Tracks S s live)
    (hb : s.toMetadata.Bijection) (hf : Fresh s i) (ht : i.inputTuple ∈ S) {w : Way}
    (hw : s.hitROneHot i w = true) : live i.inputTuple = some (wordAddr (s.doutR w)) := by
  simp only [State.hitROneHot, Bool.and_eq_true, beq_iff_eq] at hw
  rw [hf.right] at hw ⊢
  exact h.live_of_match hS hb ht hw.1 (.inr (by rw [hw.2]))

theorem hit_of_key (hb : s.toMetadata.Bijection) (hf : Fresh s i) {a : Addr} {x : Slot}
    {tag : BitVec 26} (hx : s.slotOf a = some x) (hw : s.bram x = word tag a)
    (hk : HasKey i.inputTuple (x.2, tag)) : s.anyHitL i = true ∨ s.anyHitR i = true := by
  obtain ⟨w, set⟩ := x
  have hv := hb.table.taken_of_slot hx
  rcases hk with hk | hk
  · obtain ⟨rfl, rfl⟩ := Prod.mk.inj hk
    refine .inl (anyWay_iff.mpr ⟨w, ?_⟩)
    simp only [State.hitLOneHot, hf.left, hv, hw, wordTag_word, beq_self_eq_true, Bool.and_self]
  · obtain ⟨rfl, rfl⟩ := Prod.mk.inj hk
    refine .inr (anyWay_iff.mpr ⟨w, ?_⟩)
    simp only [State.hitROneHot, hf.right, hv, hw, wordTag_word, beq_self_eq_true, Bool.and_self]

theorem Tracks.hit_of_live (h : Tracks S s live) (hb : s.toMetadata.Bijection) (hf : Fresh s i)
    {a : Addr} (ht : live i.inputTuple = some a) : s.anyHitL i = true ∨ s.anyHitR i = true := by
  obtain ⟨-, x, tag, hx, hw, hk⟩ := h.stored _ _ ht
  exact hit_of_key hb hf hx hw hk

theorem Tracks.live_none (h : Tracks S s live) (hb : s.toMetadata.Bijection) (hf : Fresh s i)
    (hm : s.readMiss i = true) : live i.inputTuple = none := by
  by_contra hl
  obtain ⟨a, ha⟩ := Option.ne_none_iff_exists'.mp hl
  have hn := State.no_hits hm
  rcases h.hit_of_live hb hf ha with hh | hh
  · simp [hn.1] at hh
  · simp [hn.2] at hh

theorem Tracks.readMiss_iff (hS : KeysApart S) (h : Tracks S s live)
    (hb : s.toMetadata.Bijection) (hf : Fresh s i) (ht : i.inputTuple ∈ S)
    (hd : s.readD = true) : s.readMiss i = true ↔ live i.inputTuple = none := by
  constructor
  · exact h.live_none hb hf
  · intro hl
    have hL : s.anyHitL i = false := by
      by_contra hh
      obtain ⟨w, hw⟩ := anyWay_iff.mp (Bool.not_eq_false _ ▸ hh)
      simp [h.live_of_hitL hS hb hf ht hw] at hl
    have hR : s.anyHitR i = false := by
      by_contra hh
      obtain ⟨w, hw⟩ := anyWay_iff.mp (Bool.not_eq_false _ ▸ hh)
      simp [h.live_of_hitR hS hb hf ht hw] at hl
    simp [State.readMiss, hd, hL, hR]

theorem Tracks.tcbAddr_live (hS : KeysApart S) (h : Tracks S s live)
    (hb : s.toMetadata.Bijection) (hf : Fresh s i) (ht : i.inputTuple ∈ S) {a : Addr}
    (ha : live i.inputTuple = some a) : (s.next i).tcbAddr = a := by
  by_cases hL : s.anyHitL i = true
  · have hl := h.live_of_hitL hS hb hf ht (lastWhere_ways hL)
    simp only [State.next, hL, if_true]
    exact Option.some.inj (hl.symm.trans ha)
  · have hR := (h.hit_of_live hb hf ha).resolve_left hL
    have hl := h.live_of_hitR hS hb hf ht (lastWhere_ways hR)
    simp only [State.next, hL, hR, if_true, Bool.false_eq_true, if_false]
    exact Option.some.inj (hl.symm.trans ha)

theorem Tracks.invalidate (h : Tracks S s live) (hi : i.invalidate = true) :
    Tracks S (s.next i) (s.liveNext i live) := by
  have hmd : (s.next i).toMetadata = s.drop i.invalidateAddr := by
    simp [State.next, State.metadataNext, hi]
  have hbr : (s.next i).bram = s.bram := by rw [State.bram_next, State.written_invalidate hi]
  have hlv : s.liveNext i live = fun t ↦ (live t).filter (· ≠ i.invalidateAddr) := by
    simp [State.liveNext, hi]
  refine ⟨?_, ?_⟩
  · intro t a ha
    rw [hlv] at ha
    obtain ⟨ha, hne⟩ := Option.filter_eq_some_iff.mp ha
    obtain ⟨ht, x, tag, hx, hw, hk⟩ := h.stored t a ha
    refine ⟨ht, x, tag, ?_, by rw [hbr, hw], hk⟩
    rw [hmd, Metadata.slotOf_drop, Function.update_of_ne (by simpa using hne), hx]
  · intro a x hx
    rw [hmd, Metadata.slotOf_drop] at hx
    have hne : a ≠ i.invalidateAddr := by
      rintro rfl
      simp at hx
    rw [Function.update_of_ne hne] at hx
    obtain ⟨t, ht⟩ := h.owned a x hx
    exact ⟨t, by simp [hlv, ht, hne]⟩

theorem Tracks.connect (h : Tracks S s live) (hb : s.toMetadata.Bijection) (hu : s.Unused)
    (ht : i.inputTuple ∈ S) (hl : live i.inputTuple = none) (h₆₃ : s.tcbAlloc ≠ 63)
    (hi : i.invalidate = false) (hm : s.readMiss i = true) (hf : s.FindsWay i) :
    Tracks S (s.next i) (s.liveNext i live) := by
  obtain ⟨⟨a, r⟩, he⟩ := Option.isSome_iff_exists.mp ((State.allocate_isSome_iff h₆₃).mpr hf)
  have hc : ¬(s.tcbAlloc = 63 ∧ s.bitmapFull = false) := fun hc ↦ h₆₃ hc.1
  obtain ⟨rfl, hside⟩ := Metadata.allocate_fresh hc he
  obtain ⟨hr, hfree⟩ := Metadata.allocate_fresh_free hc he
  have hnone : s.slotOf s.tcbAlloc = none := hb.slot_none (hu h₆₃ _ (BitVec.le_refl _))
  have hsl : (s.next i).slotOf = Function.update s.slotOf s.tcbAlloc (some r.slot) := by
    rw [← Metadata.slotOf_install hr, metadata_missed hm hi]
    simp only [Metadata.miss, he]
  have hbr : (s.next i).bram = Function.update s.bram r.slot
      (word (if r.side then tagL i.inputTuple else tagR i.inputTuple) s.tcbAlloc) := by
    rw [State.bram_next, State.written_allocate hm hi h₆₃, he]
    rfl
  have hlv : s.liveNext i live = Function.update live i.inputTuple (some s.tcbAlloc) := by
    rw [State.liveNext, hi, if_neg Bool.false_ne_true, if_pos ⟨hm, hf⟩, State.tcbAddr_miss hm]
  refine ⟨?_, ?_⟩
  · intro t a ha
    rw [hlv] at ha
    by_cases hti : t = i.inputTuple
    · subst hti
      rw [Function.update_self] at ha
      obtain rfl := Option.some.inj ha
      refine ⟨ht, r.slot, _, by rw [hsl, Function.update_self], by rw [hbr, Function.update_self], ?_⟩
      rcases hside with ⟨-, rfl⟩ | ⟨-, rfl⟩
      · exact .inl rfl
      · exact .inr rfl
    · rw [Function.update_of_ne hti] at ha
      obtain ⟨hm', x, tag, hx, hw, hk⟩ := h.stored t a ha
      have hne : a ≠ s.tcbAlloc := by
        rintro rfl
        simp [hnone] at hx
      have hxr : x ≠ r.slot := by
        rintro rfl
        simp [hb.table.taken_of_slot hx] at hfree
      exact ⟨hm', x, tag, by rw [hsl, Function.update_of_ne hne, hx],
        by rw [hbr, Function.update_of_ne hxr, hw], hk⟩
  · intro a x hx
    rw [hsl] at hx
    by_cases ha : a = s.tcbAlloc
    · subst ha
      exact ⟨i.inputTuple, by rw [hlv, Function.update_self]⟩
    · rw [Function.update_of_ne ha] at hx
      obtain ⟨t, htl⟩ := h.owned a x hx
      have hti : t ≠ i.inputTuple := by
        rintro rfl
        simp [hl] at htl
      exact ⟨t, by rw [hlv, Function.update_of_ne hti, htl]⟩

theorem Tracks.unchanged (h : Tracks S s live) (hi : i.invalidate = false)
    (h₆₃ : s.tcbAlloc ≠ 63) (hn : ¬(s.readMiss i = true ∧ s.FindsWay i)) :
    Tracks S (s.next i) (s.liveNext i live) := by
  have hlv : s.liveNext i live = live := by
    rw [State.liveNext, hi, if_neg Bool.false_ne_true, if_neg hn]
  have hno : s.readMiss i = true → s.allocate i.inputTuple = none := fun hm ↦
    (State.allocate_eq_none_iff h₆₃).mpr fun hf ↦ hn ⟨hm, hf⟩
  have hbr : (s.next i).bram = s.bram := by
    rw [State.bram_next]
    cases hm : s.readMiss i with
    | false => rw [State.written_hit hm]
    | true => rw [State.written_allocate hm hi h₆₃, hno hm, Option.map_none]
  have hmd : (s.next i).toMetadata = s.toMetadata := by
    cases hm : s.readMiss i with
    | false => simp [State.next, State.metadataNext, hi, hm]
    | true => rw [metadata_missed hm hi, Metadata.miss, hno hm]
  rw [hlv]
  exact ⟨by rw [hbr, hmd]; exact h.stored, by rw [hmd]; exact h.owned⟩

theorem fresh_next (hd : s.readD = false) {j : Input} (hj : j.inputTuple = i.inputTuple) :
    Fresh (s.next i) j := by
  have hm : s.readMiss i = false := by simp [State.readMiss, hd]
  have hL : s.writeL i = none := by simp [State.writeL, hm]
  have hR : s.writeR i = none := by simp [State.writeR, hm]
  have hbr : (s.next i).bram = s.bram := by rw [State.bram_next, State.written_hit hm]
  refine ⟨fun w ↦ ?_, fun w ↦ ?_⟩
  · rw [hbr, hj]
    simp only [State.next, hL, hR, State.portRead]
  · rw [hbr, hj]
    simp only [State.next, hL, hR, State.portRead]

end

section

variable {S : Set (BitVec 96)} {u : ℕ → Input} {n : ℕ}

theorem fresh_run (hd : Served u n) (hr : (circuit.run u n).readD = true) :
    Fresh (circuit.run u n) (u n) := by
  cases n with
  | zero => exact Bool.noConfusion hr
  | succ n =>
    have hread : (u n).read = true := hr
    have hidle : (circuit.run u n).readD = false := by
      cases n with
      | zero => rfl
      | succ k =>
        rw [← Bool.not_eq_true]
        exact fun hk ↦ Bool.noConfusion (hread.symm.trans (hd.apart k (by omega) hk))
    exact fresh_next hidle (hd.held n (by omega) hread)

theorem bijection_run (hb : ∀ k < n, (circuit.run u k).tcbAlloc ≠ 63) :
    (circuit.run u n).toMetadata.Bijection :=
  (stepwise_iff (I := fun k ↦ (circuit.run u k).toMetadata.Bijection) reset_bijection
    (fun k h ↦ next_bijection_iff _ _ (unused_run u k) h) n).mpr
    (fun k hk ht ↦ hb k hk ht.2.2.1) n le_rfl

theorem compared_mem (hd : Served u n) (hS : ∀ k ≤ n, (u k).read = true → (u k).inputTuple ∈ S)
    (hr : (circuit.run u n).readD = true) : (u n).inputTuple ∈ S := by
  cases n with
  | zero => exact Bool.noConfusion hr
  | succ n =>
    rw [hd.held n (by omega) hr]
    exact hS n (by omega) hr

theorem tracks_run (hd : Served u n) (hS : ∀ k ≤ n, (u k).read = true → (u k).inputTuple ∈ S) :
    Tracks S (circuit.run u n) (live u n) := by
  induction n with
  | zero => exact ⟨by simp [live], by simp [circuit, Metadata.slotOf]⟩
  | succ n ih =>
    have hd' := hd.mono (Nat.le_succ n)
    have hS' := fun k (hk : k ≤ n) ↦ hS k (by omega)
    have h := ih hd' hS'
    have h₆₃ := hd.below n (by omega)
    have hb := bijection_run (n := n) fun k hk ↦ hd.below k (by omega)
    rw [run_succ]
    cases hi : (u n).invalidate with
    | true => exact h.invalidate hi
    | false =>
      by_cases hm : (circuit.run u n).readMiss (u n) = true ∧ (circuit.run u n).FindsWay (u n)
      · have hr : (circuit.run u n).readD = true := by
          have hm' := hm.1
          simp only [State.readMiss, Bool.and_eq_true] at hm'
          exact hm'.1.1
        have hl := h.live_none hb (fresh_run hd' hr) hm.1
        exact h.connect hb (unused_run u n) (compared_mem hd' hS' hr) hl h₆₃ hi hm.1 hm.2
      · exact h.unchanged hi h₆₃ hm

/-- Up to saturation the cache is a correct lookup table: a read misses exactly the tuples that are
not live, and a live tuple is answered with the address it was given. -/
theorem lookup_correct (hS : KeysApart S) (hd : Disciplined S u (n + 1))
    (hr : (u n).read = true) :
    ((circuit.run u (n + 1)).readMiss (u (n + 1)) = true ↔
      live u (n + 1) (u n).inputTuple = none) ∧
    ∀ a, live u (n + 1) (u n).inputTuple = some a →
      (circuit.run u (n + 2)).tcbAddrValid = true ∧ (circuit.run u (n + 2)).tcbAddr = a := by
  have h := tracks_run hd.served hd.mem
  have hb := bijection_run (n := n + 1) fun k hk ↦ hd.below k (by omega)
  have hr' : (circuit.run u (n + 1)).readD = true := by rw [run_succ]; exact hr
  have ht := compared_mem hd.served hd.mem hr'
  have hf := fresh_run hd.served hr'
  rw [← hd.held n (by omega) hr]
  refine ⟨h.readMiss_iff hS hb hf ht hr', fun a ha ↦ ⟨?_, ?_⟩⟩
  · rw [run_succ]
    exact State.tcbAddrValid_next.trans ((reqValid_run u _).trans hr')
  · rw [run_succ]
    exact h.tcbAddr_live hS hb hf ht ha

end

/-- Two tuples get addresses, the first one loses its address, and both are looked up. -/
def mixed : ℕ → Input
  | 0 | 9 => { read := true }
  | 3 | 12 => { read := true, inputTuple := 1 }
  | 4 | 13 => { inputTuple := 1 }
  | 6 => { invalidate := true }
  | _ => {}

theorem keysApart_mixed : KeysApart {0, 1} := by
  have hne : ((setL 0, tagL 0) ≠ (setL 1, tagL 1) ∧ (setL 0, tagL 0) ≠ (setR 1, tagR 1)) ∧
      (setR 0, tagR 0) ≠ (setL 1, tagL 1) ∧ (setR 0, tagR 0) ≠ (setR 1, tagR 1) := by decide +kernel
  have h : ∀ k, HasKey 0 k → ¬HasKey 1 k := by
    rintro k (rfl | rfl) (hk | hk)
    · exact hne.1.1 hk
    · exact hne.1.2 hk
    · exact hne.2.1 hk
    · exact hne.2.2 hk
  rintro t (rfl | rfl) t' (rfl | rfl) k hk hk'
  · rfl
  · exact absurd hk' (h k hk)
  · exact absurd hk (h k hk')
  · rfl

theorem mixed_disciplined : Disciplined {0, 1} mixed 13 where
  spaced := by
    have h : ∀ k ≤ 13, ∀ j < k, (mixed j).read = true → (mixed k).read = true → j + 3 ≤ k := by
      decide
    exact fun j k hjk hk ↦ h k hk j hjk
  held := by decide
  mem := by
    have h : ∀ k ≤ 13, (mixed k).inputTuple = 0 ∨ (mixed k).inputTuple = 1 := by decide
    exact fun k hk _ ↦ h k hk
  calm := by decide +kernel
  below := by decide +kernel

theorem lookup_mixed : (circuit.run mixed 10).readMiss (mixed 10) = true ∧
    (circuit.run mixed 14).tcbAddrValid = true ∧ (circuit.run mixed 14).tcbAddr = 1 := by
  have hd : Disciplined {0, 1} mixed 10 := by
    obtain ⟨hspaced, hheld, hmem, hcalm, hbelow⟩ := mixed_disciplined
    exact ⟨fun j k hjk hk ↦ hspaced j k hjk (by omega), fun k hk ↦ hheld k (by omega),
      fun k hk ↦ hmem k (by omega), fun k hk ↦ hcalm k (by omega), fun k hk ↦ hbelow k (by omega)⟩
  exact ⟨(lookup_correct keysApart_mixed hd rfl).1.mpr (by decide +kernel),
    (lookup_correct keysApart_mixed mixed_disciplined rfl).2 1 (by decide +kernel)⟩

end QdmaTrafficGen.Cache
