import QdmaTrafficGen.MempoolScan
import Mathlib.Order.Interval.Set.Disjoint
import Mathlib.Order.CompletePartialOrder

open Function Relation Sequential Blocks

namespace QdmaTrafficGen.QdmaNet.Mempool

variable {kmalloc : ℕ → Option ℕ} {sizes : Set ℕ} {p q : Mempool} {live : List (ℕ × ℕ)}
  {n l w a k : ℕ} {memptr : Option ℕ} {s : Scan}

/-- A pool after any calls since it was created, the requested numbers of blocks being from `sizes`
and the pointers given back being live, together with the live pointers and their numbers of blocks. -/
inductive Reachable (kmalloc : ℕ → Option ℕ) (sizes : Set ℕ) : Mempool → List (ℕ × ℕ) → Prop
  | create {p : Mempool} {e m : ℕ} (he : 0 < e) (he' : e < 2 ^ 32) (hm : m < 2 ^ 32)
      (h : create kmalloc e m = .ok p) : Reachable kmalloc sizes p []
  | alloc {p q : Mempool} {live : List (ℕ × ℕ)} {n : ℕ} {memptr : Option ℕ}
      (h : Reachable kmalloc sizes p live) (hn : n ∈ sizes) (hn' : n < 2 ^ 32)
      (ha : p.Allocs n memptr q) : Reachable kmalloc sizes q ((memptr.map (·, n)).toList ++ live)
  | free {p : Mempool} {live : List (ℕ × ℕ)} {a n : ℕ} (h : Reachable kmalloc sizes p live)
      (ha : (a, n) ∈ live) : Reachable kmalloc sizes (p.free (some a)) (live.erase (a, n))

/-- The live pointers are those to the first blocks of the runs. -/
structure Tracks (p : Mempool) (live : List (ℕ × ℕ)) : Prop where
  valid : p.Valid
  nodup : live.Nodup
  mem_iff : ∀ a l, (a, l) ∈ live ↔ ∃ w, p.runs w = some l ∧ a = p.address w

def range (p : Mempool) (a n : ℕ) : Set ℕ := Set.Ico (p.blockOf a) (p.blockOf a + n)

def Free (p : Mempool) (live : List (ℕ × ℕ)) (k : ℕ) : Prop :=
  ∀ a n, (a, n) ∈ live → k ∉ p.range a n

theorem blockOf_address (hp : p.Valid) (hw : w ≤ p.totalMemblks) : p.blockOf (p.address w) = w := by
  have hb := hp.blksz_pos
  have ht := hp.total_lt
  have hdiv : ((p.address w : ℤ) - p.mempool).tdiv p.mempoolBlksz = w := by
    rw [address, Nat.cast_add, add_sub_cancel_left, Nat.cast_mul]
    exact Int.mul_tdiv_cancel _ (by omega)
  rw [blockOf, hdiv]
  omega

theorem address_injective (hp : p.Valid) : Injective p.address := by
  intro v w h
  exact Nat.eq_of_mul_eq_mul_right hp.blksz_pos (Nat.add_left_cancel h)

theorem runs_withRun : (p.withRun w n).runs = update p.runs w (some n) := runs_update

theorem withRun_valid (hp : p.Valid) (hn : 0 < n) (hw : w + n ≤ p.totalMemblks)
    (hv : Vacant p.runs w n) : (p.withRun w n).Valid := by
  have hplaced : Placed (p.withRun w n).runs p.totalMemblks := by
    rw [runs_withRun]
    exact hp.placed.add hn hw hv
  have hself : (p.withRun w n).runs w = some n := by rw [runs_withRun, update_self]
  exact ⟨hplaced, hw, hplaced.boundary_end hself, fun _ _ _ ↦ Nat.lt_add_left w hn, hp.blksz_pos,
    hp.size_lt⟩

theorem vacant_runs (hn : 0 < n) (hv : Vacant p.runs w n) (hp : p.Valid) : p.runs w = none := by
  by_contra h
  obtain ⟨l, hl⟩ := Option.ne_none_iff_exists'.mp h
  have hb := hp.placed.bounds w l hl
  exact hv w le_rfl (by omega) ⟨w, l, hl, le_rfl, by omega⟩

theorem Tracks.withRun (h : Tracks p live) (hn : 0 < n) (hw : w + n ≤ p.totalMemblks)
    (hv : Vacant p.runs w n) : Tracks (p.withRun w n) ((p.address w, n) :: live) := by
  have hnone := vacant_runs hn hv h.valid
  refine ⟨withRun_valid h.valid hn hw hv, ?_, ?_⟩
  · refine List.nodup_cons.mpr ⟨?_, h.nodup⟩
    intro hmem
    obtain ⟨v, hv, ha⟩ := (h.mem_iff _ _).mp hmem
    rw [← address_injective h.valid ha, hnone] at hv
    nomatch hv
  · intro a l
    rw [List.mem_cons, runs_withRun, h.mem_iff]
    constructor
    · rintro (hal | ⟨v, hl, rfl⟩)
      · obtain ⟨rfl, rfl⟩ := Prod.mk.inj hal
        exact ⟨w, update_self .., rfl⟩
      · have hvw : v ≠ w := by
          rintro rfl
          rw [hnone] at hl
          nomatch hl
        exact ⟨v, by rwa [update_of_ne hvw], rfl⟩
    · rintro ⟨v, hv, rfl⟩
      by_cases hvw : v = w
      · subst hvw
        rw [update_self] at hv
        exact .inl (Prod.ext rfl (Option.some.inj hv).symm)
      · rw [update_of_ne hvw] at hv
        exact .inr ⟨v, hv, rfl⟩

theorem Tracks.free (h : Tracks p live) (ha : (a, n) ∈ live) :
    Tracks (p.free (some a)) (live.erase (a, n)) := by
  obtain ⟨w, hw, rfl⟩ := (h.mem_iff _ _).mp ha
  have hb := h.valid.placed.bounds w n hw
  have hfree : p.free (some (p.address w)) =
      { p with mempoolInfo := update p.mempoolInfo w ⟨none, 0⟩ } := by
    rw [Mempool.free, blockOf_address h.valid (by omega)]
    exact if_neg (by omega)
  have hruns : (p.free (some (p.address w))).runs = update p.runs w none := by
    rw [hfree]
    exact runs_update
  refine ⟨⟨?_, ?_, ?_, ?_, ?_, ?_⟩, h.nodup.erase _, ?_⟩
  · rw [hruns, hfree]
    exact h.valid.placed.remove
  · rw [hfree]
    exact h.valid.blkidx_le
  · rw [hruns, hfree]
    exact h.valid.blkidx_boundary.remove
  · rw [hruns, hfree]
    exact fun s l hs ↦ h.valid.blkidx_pos s l (eq_some_of_remove hs).2
  · rw [hfree]
    exact h.valid.blksz_pos
  · rw [hfree]
    exact h.valid.size_lt
  · intro b l
    rw [h.nodup.mem_erase_iff, h.mem_iff, hruns, hfree]
    constructor
    · rintro ⟨hne, v, hv, rfl⟩
      have hvw : v ≠ w := by
        rintro rfl
        rw [hw] at hv
        exact hne (by rw [Option.some.inj hv])
      exact ⟨v, by rwa [update_of_ne hvw], rfl⟩
    · rintro ⟨v, hv, rfl⟩
      obtain ⟨hvw, hv⟩ := eq_some_of_remove hv
      exact ⟨fun heq ↦ hvw (address_injective h.valid (Prod.mk.inj heq).1), v, hv, rfl⟩

/-- The scan comes back to the front of the pool again and again. -/
def Stuck (p : Mempool) (n : ℕ) : Prop :=
  0 < n ∧ n ≤ p.mempoolBlkidx ∧ p.RunAhead n ∧ ¬p.RoomFrom n 0

theorem start_scan (hp : p.Valid) (hn : 0 < n) (hle : n ≤ p.totalMemblks) :
    p.Takes n (p.startBlock n) (p.start n) ∨ ¬p.RoomFrom n (p.startBlock n) ∧
      (p.mempoolBlkidx < n ∧ p.Allocs n none p ∨
        n ≤ p.mempoolBlkidx ∧ TransGen (Loop.Goes (p.iteration n)) (p.start n) (restarted n)) := by
  obtain ⟨hal, htmp⟩ := start_aligned hp hn hle
  rw [← htmp]
  exact aligned_scan hp hal

theorem alloc_of_not_stuck (hp : p.Valid) (hn : n < 2 ^ 32) (h : ¬p.Stuck n) :
    p.Allocs n none p ∨ 0 < n ∧ ∃ a, p.Takes n a (p.start n) := by
  by_cases hout : n = 0 ∨ p.totalMemblks < n
  · exact .inl (start_none hp hn hout)
  · have hpos : 0 < n := by omega
    obtain ht | ⟨-, ⟨-, hnone⟩ | ⟨hle, hpath⟩⟩ := start_scan hp hpos (by omega)
    · exact .inr ⟨hpos, _, ht⟩
    · exact .inl hnone
    · obtain ⟨hends, -⟩ | ⟨hrun, hrest⟩ := restarted_scan hp hpos hle
      · exact .inl ((Loop.ends_iff_of_path hpath).mpr hends)
      · have hroom : p.RoomFrom n 0 := by
          by_contra hroom
          exact h ⟨hpos, hle, hrun, hroom⟩
        obtain ⟨t, ht, hal, hkeep⟩ | ⟨-, hno⟩ := hrest
        · rcases aligned_scan hp hal with ⟨w, hle, hw, hv, hends⟩ | ⟨hno, -⟩
          · exact .inr ⟨hpos, _, w, hle, hw, hv, (Loop.ends_iff_of_path (hpath.trans ht)).mpr hends⟩
          · exact absurd (hkeep hroom) hno
        · exact absurd hroom hno

theorem not_allocs_of_stuck (hp : p.Valid) (h : p.Stuck n) : ¬p.Allocs n memptr q := by
  obtain ⟨hpos, hle, hrun, hroom⟩ := h
  have hcycle : TransGen (Loop.Goes (p.iteration n)) (restarted n) (restarted n) := by
    obtain ⟨-, hno⟩ | ⟨-, ⟨t, ht, hal, -⟩ | ⟨ht, -⟩⟩ := restarted_scan hp hpos hle
    · exact absurd hrun hno
    · obtain htakes | ⟨-, ⟨hlt, -⟩ | ⟨-, hback⟩⟩ := aligned_scan hp hal
      · exact absurd (htakes.room.mono (Nat.zero_le _)) hroom
      · omega
      · exact ht.trans hback
    · exact ht
  obtain htakes | ⟨-, ⟨hlt, -⟩ | ⟨-, hpath⟩⟩ := start_scan hp hpos (hle.trans hp.blkidx_le)
  · exact absurd (htakes.room.mono (Nat.zero_le _)) hroom
  · omega
  · intro hends
    exact Loop.not_ends_of_cycle hcycle ((Loop.ends_iff_of_path hpath).mp hends)

theorem Allocs.cases (hp : p.Valid) (hn : n < 2 ^ 32) (h : p.Allocs n memptr q) :
    (memptr = none ∧ q = p) ∨ 0 < n ∧ ∃ w, w + n ≤ p.totalMemblks ∧ Vacant p.runs w n ∧
      memptr = some (p.address w) ∧ q = p.withRun w n := by
  have hstuck : ¬p.Stuck n := fun hs ↦ not_allocs_of_stuck hp hs h
  obtain hnone | ⟨hpos, a, w, -, hw, hv, hends⟩ := alloc_of_not_stuck hp hn hstuck
  · exact .inl (Prod.mk.inj (h.unique hnone))
  · exact .inr ⟨hpos, w, hw, hv, Prod.mk.inj (h.unique hends)⟩

theorem Reachable.tracks (hk : KmallocLimited kmalloc) (h : Reachable kmalloc sizes p live) :
    Tracks p live := by
  induction h with
  | @create p e m he he' hm h =>
    have hnone : ∀ k, p.runs k = none := by
      unfold Mempool.create at h
      split at h
      · nomatch h
      · obtain rfl := Except.ok.inj h
        exact fun k ↦ rfl
    refine ⟨create_valid hk he he' hm h, List.nodup_nil, fun a l ↦ ⟨nofun, ?_⟩⟩
    rintro ⟨w, hw, -⟩
    rw [hnone] at hw
    nomatch hw
  | alloc h hn hn' ha ih =>
    obtain ⟨rfl, rfl⟩ | ⟨hpos, w, hw, hv, rfl, rfl⟩ := ha.cases ih.valid hn'
    · exact ih
    · exact ih.withRun hpos hw hv
  | free h ha ih => exact ih.free ha

theorem Tracks.range_eq (h : Tracks p live) (hw : p.runs w = some l) :
    p.range (p.address w) l = Set.Ico w (w + l) := by
  have hb := h.valid.placed.bounds w l hw
  rw [range, blockOf_address h.valid (by omega)]

theorem Tracks.free_iff (h : Tracks p live) : p.Free live k ↔ ¬Covered p.runs k := by
  constructor
  · rintro hf ⟨w, l, hw, hk⟩
    apply hf (p.address w) l ((h.mem_iff _ _).mpr ⟨w, hw, rfl⟩)
    rw [h.range_eq hw]
    exact hk
  · intro hc a l hal hk
    obtain ⟨w, hw, rfl⟩ := (h.mem_iff _ _).mp hal
    rw [h.range_eq hw] at hk
    exact hc ⟨w, l, hw, hk⟩

/-- A block that `qdma_net_mempool_alloc` returns lies in the pool and overlaps no live one. -/
theorem Reachable.alloc_disjoint (hk : KmallocLimited kmalloc) (h : Reachable kmalloc sizes p live)
    (hn : n < 2 ^ 32) (ha : p.Allocs n (some a) q) :
    p.address (p.blockOf a) = a ∧ p.blockOf a + n ≤ p.totalMemblks ∧
      ∀ b m, (b, m) ∈ live → Disjoint (p.range b m) (p.range a n) := by
  have ht := h.tracks hk
  obtain ⟨hnone, -⟩ | ⟨hpos, w, hw, hv, hsome, -⟩ := ha.cases ht.valid hn
  · nomatch hnone
  · obtain rfl := Option.some.inj hsome
    rw [range, blockOf_address ht.valid (by omega)]
    refine ⟨rfl, hw, ?_⟩
    intro b m hb
    obtain ⟨v, hrun, rfl⟩ := (ht.mem_iff _ _).mp hb
    rw [ht.range_eq hrun, Set.Ico_disjoint_Ico]
    have hm := (ht.valid.placed.bounds v m hrun).1
    rcases hv.disjoint hrun hm hpos with h | h <;> omega

def kmallocOnce (size : ℕ) : Option ℕ := if size < 2 ^ 31 then some 4096 else none

theorem kmallocOnce_limited : KmallocLimited kmallocOnce :=
  fun _ h ↦ if_neg (not_lt.mpr h)

def twoBlocks : Mempool := ⟨4096, 0, 8, 2, fun _ ↦ ⟨none, 0⟩⟩

theorem twoBlocks_reachable (sizes : Set ℕ) : Reachable kmallocOnce sizes twoBlocks [] :=
  .create (e := 8) (m := 2) (by decide) (by decide) (by decide) rfl

theorem first_alloc : twoBlocks.Allocs 1 (some 4096) (twoBlocks.withRun 0 1) :=
  allocs_iff.mpr ⟨1, rfl⟩

theorem second_alloc : (twoBlocks.withRun 0 1).Allocs 1 (some 4104)
    ((twoBlocks.withRun 0 1).withRun 1 1) := allocs_iff.mpr ⟨1, rfl⟩

theorem one_taken (h : 1 ∈ sizes) :
    Reachable kmallocOnce sizes (twoBlocks.withRun 0 1) [(4096, 1)] :=
  .alloc (twoBlocks_reachable sizes) h (by decide) first_alloc

theorem both_taken (h : 1 ∈ sizes) :
    Reachable kmallocOnce sizes ((twoBlocks.withRun 0 1).withRun 1 1) [(4104, 1), (4096, 1)] :=
  .alloc (one_taken h) h (by decide) second_alloc

theorem alloc_disjoint_second : (twoBlocks.withRun 0 1).blockOf 4104 + 1 ≤ 2 ∧
    Disjoint ((twoBlocks.withRun 0 1).range 4096 1) ((twoBlocks.withRun 0 1).range 4104 1) := by
  have h := Reachable.alloc_disjoint kmallocOnce_limited (one_taken (Set.mem_univ 1)) (by decide)
    second_alloc
  exact ⟨h.2.1, h.2.2 4096 1 (by decide)⟩

end QdmaTrafficGen.QdmaNet.Mempool
