import QdmaTrafficGen.MempoolRuns

open Function Relation Sequential Blocks

namespace QdmaTrafficGen.QdmaNet.Mempool

variable {kmalloc : ℕ → Option ℕ} {sizes : Set ℕ} {p q : Mempool} {live : List (ℕ × ℕ)}
  {n a k : ℕ} {memptr : Option ℕ}

theorem exists_allocs_iff (hp : p.Valid) (hn : n < 2 ^ 32) :
    (∃ memptr q, p.Allocs n memptr q) ↔ ¬p.Stuck n := by
  constructor
  · rintro ⟨memptr, q, h⟩ hs
    exact not_allocs_of_stuck hp hs h
  · intro h
    obtain hnone | ⟨-, -, w, -, -, -, hends⟩ := alloc_of_not_stuck hp hn h
    · exact ⟨none, p, hnone⟩
    · exact ⟨_, _, hends⟩

theorem Tracks.runAhead_iff (h : Tracks p live) :
    p.RunAhead n ↔ ∃ a l, (a, l) ∈ live ∧ 1 ≤ p.blockOf a ∧ p.blockOf a < n := by
  rw [Mempool.runAhead_iff]
  constructor
  · rintro ⟨w, hw, hwn, hne⟩
    obtain ⟨l, hl⟩ := Option.ne_none_iff_exists'.mp hne
    have hb := h.valid.placed.bounds w l hl
    refine ⟨p.address w, l, (h.mem_iff _ _).mpr ⟨w, hl, rfl⟩, ?_⟩
    rw [blockOf_address h.valid (by omega)]
    exact ⟨hw, hwn⟩
  · rintro ⟨a, l, hal, hw, hwn⟩
    obtain ⟨w, hl, rfl⟩ := (h.mem_iff _ _).mp hal
    have hb := h.valid.placed.bounds w l hl
    rw [blockOf_address h.valid (by omega)] at hw hwn
    exact ⟨w, hw, hwn, by rw [hl]; nofun⟩

theorem Tracks.room_iff (h : Tracks p live) : p.RoomFrom n a ↔
    ∃ w, a ≤ w ∧ w + n ≤ p.totalMemblks ∧ ∀ k, w ≤ k → k < w + n → p.Free live k := by
  simp only [RoomFrom, Room, Vacant, h.free_iff]

/-- A call returns unless it asks for no more blocks than lie before the rotating index, finds a
run at one of the blocks from block 1 on that it counts, and there is no room for what it asks. -/
theorem Reachable.alloc_ends_iff (hk : KmallocLimited kmalloc) (h : Reachable kmalloc sizes p live)
    (hn : n < 2 ^ 32) : (∃ memptr q, p.Allocs n memptr q) ↔
      n = 0 ∨ p.mempoolBlkidx < n ∨
        (∀ a l, (a, l) ∈ live → p.blockOf a = 0 ∨ n ≤ p.blockOf a) ∨
        ∃ w, w + n ≤ p.totalMemblks ∧ ∀ k, w ≤ k → k < w + n → p.Free live k := by
  have ht := h.tracks hk
  rw [exists_allocs_iff ht.valid hn, Stuck, ht.runAhead_iff, ht.room_iff]
  constructor
  · intro hns
    by_contra! hcon
    obtain ⟨hpos, hle, ⟨a, l, hal, hne, hlt⟩, hroom⟩ := hcon
    refine hns ⟨by omega, hle, ⟨a, l, hal, by omega, hlt⟩, ?_⟩
    rintro ⟨w, -, hw, hfree⟩
    obtain ⟨k, hwk, hkw, hk'⟩ := hroom w hw
    exact hk' (hfree k hwk hkw)
  · rintro hok ⟨hpos, hle, ⟨a, l, hal, hne, hlt⟩, hroom⟩
    obtain h0 | hlt' | hruns | ⟨w, hw, hfree⟩ := hok
    · omega
    · omega
    · have := hruns a l hal
      omega
    · exact hroom ⟨w, Nat.zero_le w, hw, hfree⟩

def fourBlocks : Mempool := ⟨4096, 0, 8, 4, fun _ ↦ ⟨none, 0⟩⟩

/-- Three blocks have been taken, and the first two of them have been given back. -/
def holes : Mempool :=
  ((((fourBlocks.withRun 0 1).withRun 1 1).withRun 2 1).free (some 4096)).free (some 4104)

theorem holes_reachable {sizes : Set ℕ} (h : 1 ∈ sizes) :
    Reachable kmallocOnce sizes holes [(4112, 1)] := by
  have hnew : Reachable kmallocOnce sizes fourBlocks [] :=
    .create (e := 8) (m := 4) (by decide) (by decide) (by decide) rfl
  have hfirst : fourBlocks.Allocs 1 (some 4096) (fourBlocks.withRun 0 1) := allocs_iff.mpr ⟨1, rfl⟩
  have hsecond : (fourBlocks.withRun 0 1).Allocs 1 (some 4104)
      ((fourBlocks.withRun 0 1).withRun 1 1) := allocs_iff.mpr ⟨1, rfl⟩
  have hthird : ((fourBlocks.withRun 0 1).withRun 1 1).Allocs 1 (some 4112)
      (((fourBlocks.withRun 0 1).withRun 1 1).withRun 2 1) := allocs_iff.mpr ⟨1, rfl⟩
  have htaken : Reachable kmallocOnce sizes (((fourBlocks.withRun 0 1).withRun 1 1).withRun 2 1)
      [(4112, 1), (4104, 1), (4096, 1)] :=
    .alloc (.alloc (.alloc hnew h (by decide) hfirst) h (by decide) hsecond) h (by decide) hthird
  exact .free (a := 4104) (n := 1) (.free (a := 4096) (n := 1) htaken (by decide)) (by decide)

theorem holes_free {k : ℕ} (hk : k ≠ 2) : holes.Free [(4112, 1)] k := by
  intro a n hmem
  obtain ⟨rfl, rfl⟩ := Prod.mk.inj (List.mem_singleton.mp hmem)
  have hblock : holes.blockOf 4112 = 2 := by decide
  rw [range, hblock, Set.mem_Ico]
  omega

theorem alloc_ends_holes : ∃ memptr q, holes.Allocs 2 memptr q :=
  (Reachable.alloc_ends_iff kmallocOnce_limited (holes_reachable (Set.mem_univ 1)) (by decide)).mpr
    (.inr (.inr (.inr ⟨0, by decide, fun _ _ hk ↦ holes_free (by omega)⟩)))

theorem covered_of_both (hk : k < 2) : Covered ((twoBlocks.withRun 0 1).withRun 1 1).runs k := by
  refine ⟨k, 1, ?_, le_rfl, Nat.lt_succ_self k⟩
  interval_cases k <;> rfl

theorem both_taken_stuck : ((twoBlocks.withRun 0 1).withRun 1 1).Stuck 2 := by
  refine ⟨by decide, by decide, ⟨1, by decide, by decide, rfl⟩, ?_⟩
  rintro ⟨w, -, hw, hv⟩
  have hw' : w + 2 ≤ 2 := hw
  exact hv w le_rfl (by omega) (covered_of_both (by omega))

theorem alloc_two_never_ends : ¬∀ kmalloc sizes p live n, KmallocLimited kmalloc →
    Reachable kmalloc sizes p live → n < 2 ^ 32 → ∃ memptr q, p.Allocs n memptr q := by
  intro h
  have hr := both_taken (Set.mem_univ 1)
  obtain ⟨memptr, q, ha⟩ := h _ _ _ _ 2 kmallocOnce_limited hr (by decide)
  exact not_allocs_of_stuck (hr.tracks kmallocOnce_limited).valid both_taken_stuck ha

theorem not_stuck_one : ¬p.Stuck 1 := by
  rintro ⟨-, -, ⟨k, hk, hk', -⟩, -⟩
  omega

theorem allocs_one_none_iff (hp : p.Valid) :
    p.Allocs 1 none q ↔ q = p ∧ ¬p.RoomFrom 1 (p.startBlock 1) := by
  by_cases ht : p.totalMemblks = 0
  · have hnone : p.Allocs 1 none p := start_none hp (by decide) (.inr (by omega))
    have hroom : ¬p.RoomFrom 1 (p.startBlock 1) := not_room (by omega)
    constructor
    · exact fun h ↦ ⟨(Prod.mk.inj (h.unique hnone)).2, hroom⟩
    · rintro ⟨rfl, -⟩
      exact hnone
  · obtain htakes | ⟨hroom, hrest⟩ := start_scan hp Nat.one_pos (by omega)
    · constructor
      · intro h
        obtain ⟨w, -, -, -, hends⟩ := htakes
        exact absurd (Prod.mk.inj (h.unique hends)).1 nofun
      · rintro ⟨-, hno⟩
        exact absurd htakes.room hno
    · have hnone : p.Allocs 1 none p := by
        obtain ⟨-, hnone⟩ | ⟨hle, hpath⟩ := hrest
        · exact hnone
        · obtain ⟨hends, -⟩ | ⟨⟨k, hk, hk', -⟩, -⟩ := restarted_scan hp Nat.one_pos hle
          · exact (Loop.ends_iff_of_path hpath).mpr hends
          · omega
      constructor
      · exact fun h ↦ ⟨(Prod.mk.inj (h.unique hnone)).2, hroom⟩
      · rintro ⟨rfl, -⟩
        exact hnone

theorem Tracks.room_one_iff (h : Tracks p live) :
    p.RoomFrom 1 a ↔ ∃ k, a ≤ k ∧ k < p.totalMemblks ∧ p.Free live k := by
  rw [h.room_iff]
  constructor
  · rintro ⟨w, haw, hw, hf⟩
    exact ⟨w, haw, hw, hf w le_rfl (Nat.lt_succ_self w)⟩
  · rintro ⟨k, hak, hk, hf⟩
    refine ⟨k, hak, hk, fun j hkj hjk ↦ ?_⟩
    obtain rfl : j = k := by omega
    exact hf

/-- Asking for one block always returns, and returns NULL only when all blocks are live exactly if
the rotating index is at the end, or no block is free, or one at the index or behind it is. -/
theorem Reachable.alloc_one_iff (hk : KmallocLimited kmalloc) (h : Reachable kmalloc sizes p live) :
    (∃ memptr q, p.Allocs 1 memptr q) ∧
      ((∀ q, p.Allocs 1 none q → ∀ k < p.totalMemblks, ¬p.Free live k) ↔
        p.mempoolBlkidx = p.totalMemblks ∨ (∀ k < p.totalMemblks, ¬p.Free live k) ∨
          ∃ k, p.mempoolBlkidx ≤ k ∧ k < p.totalMemblks ∧ p.Free live k) := by
  have ht := h.tracks hk
  have hb := ht.valid.blkidx_le
  refine ⟨(exists_allocs_iff ht.valid (by decide)).mpr not_stuck_one, ?_⟩
  simp only [allocs_one_none_iff ht.valid, ht.room_one_iff]
  constructor
  · intro hfull
    by_contra! hcon
    obtain ⟨hend, ⟨k, hk, hfree⟩, hbehind⟩ := hcon
    refine hfull p ⟨rfl, ?_⟩ k hk hfree
    rw [startBlock, if_pos (by omega)]
    rintro ⟨j, hj, hjt, hfree'⟩
    exact hbehind j hj hjt hfree'
  · rintro hok q ⟨-, hno⟩ k hk hfree
    obtain hend | hfull | ⟨j, hj, hjt, hfree'⟩ := hok
    · rw [startBlock, if_neg (by omega)] at hno
      exact hno ⟨k, Nat.zero_le k, hk, hfree⟩
    · exact hfull k hk hfree
    · rw [startBlock, if_pos (by omega)] at hno
      exact hno ⟨j, hj, hjt, hfree'⟩

theorem alloc_one_holes : (∃ memptr q, holes.Allocs 1 memptr q) ∧ ∀ q, ¬holes.Allocs 1 none q := by
  obtain ⟨hends, hiff⟩ :=
    Reachable.alloc_one_iff kmallocOnce_limited (holes_reachable (Set.mem_singleton 1))
  have hfree : holes.Free [(4112, 1)] 3 := holes_free (by decide)
  exact ⟨hends, fun q hq ↦
    hiff.mpr (.inr (.inr ⟨3, by decide, by decide, hfree⟩)) q hq 3 (by decide) hfree⟩

def firstFree : Mempool := ((twoBlocks.withRun 0 1).withRun 1 1).free (some 4096)

theorem firstFree_alloc : firstFree.Allocs 1 (some 4096) (firstFree.withRun 0 1) :=
  allocs_iff.mpr ⟨1, rfl⟩

theorem firstFree_reachable : Reachable kmallocOnce {1} firstFree [(4104, 1)] :=
  .free (a := 4096) (n := 1) (both_taken (Set.mem_singleton 1)) (by decide)

theorem firstAgain_reachable :
    Reachable kmallocOnce {1} ((firstFree.withRun 0 1).free (some 4096)) [(4104, 1)] :=
  .free (a := 4096) (n := 1) (.alloc firstFree_reachable rfl (by decide) firstFree_alloc) (by decide)

theorem alloc_one_fails_early : ¬∀ kmalloc p live q, KmallocLimited kmalloc →
    Reachable kmalloc {1} p live → p.Allocs 1 none q → ∀ k < p.totalMemblks, ¬p.Free live k := by
  intro h
  refine h _ _ _ _ kmallocOnce_limited firstAgain_reachable (allocs_iff.mpr ⟨3, rfl⟩) 0 (by decide) ?_
  intro a n hmem
  obtain ⟨rfl, rfl⟩ := Prod.mk.inj (List.mem_singleton.mp hmem)
  rintro ⟨hle, -⟩
  exact absurd hle (by decide)

end QdmaTrafficGen.QdmaNet.Mempool
