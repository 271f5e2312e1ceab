import QdmaTrafficGen.Mempool

open Function Relation Sequential Blocks

namespace QdmaTrafficGen.QdmaNet.Mempool

variable {p : Mempool} {n l w a : ℕ} {s : Scan}

def address (p : Mempool) (w : ℕ) : ℕ := p.mempool + w * p.mempoolBlksz

def withRun (p : Mempool) (w n : ℕ) : Mempool :=
  { p with mempoolInfo := update p.mempoolInfo w ⟨some w, n⟩, mempoolBlkidx := w + n }

abbrev RoomFrom (p : Mempool) (n a : ℕ) : Prop := Room p.runs p.totalMemblks n a

def restarted (n : ℕ) : Scan := ⟨1, 0, n, 0⟩

/-- The scan has counted the blocks from `tmpBlkidx` on, which is not inside a run. -/
structure Aligned (p : Mempool) (n : ℕ) (s : Scan) : Prop where
  avail_lt : s.avail < n
  i_eq : s.i = s.tmpBlkidx + s.avail
  max_eq : s.maxBlkcnt = s.tmpBlkidx + n
  fits : s.tmpBlkidx + n ≤ p.totalMemblks
  boundary : Boundary p.runs s.tmpBlkidx
  vacant : ∀ k, s.tmpBlkidx ≤ k → k < s.i → p.runs k = none

/-- The scan has been moved back to the front and has counted the blocks from block 1 on. -/
structure Restarted (p : Mempool) (n : ℕ) (s : Scan) : Prop where
  i_pos : 1 ≤ s.i
  i_le : s.i ≤ n
  i_eq : s.i = s.avail + 1
  max_eq : s.maxBlkcnt = n
  tmp_eq : s.tmpBlkidx = 0
  le_blkidx : n ≤ p.mempoolBlkidx
  vacant : ∀ k, 1 ≤ k → k < s.i → p.runs k = none

theorem look_run (hp : p.Valid) (h : p.runs s.i = some l) (hn : s.i + l + n < 2 ^ 32) :
    p.look n s = ⟨s.i + l - 1, 0, s.i + l + n, s.i + l⟩ := by
  have hsome : (p.mempoolInfo s.i).memptr.isSome := by
    by_contra hnone
    rw [runs, if_neg hnone] at h
    cases h
  obtain rfl : (p.mempoolInfo s.i).numBlks = l := by
    rw [runs_of_isSome hsome] at h
    exact Option.some.inj h
  have hb := hp.placed.bounds _ _ h
  have ht := hp.total_lt
  have hi : uint (s.i + uint ((p.mempoolInfo s.i).numBlks + (2 ^ 32 - 1))) =
      s.i + (p.mempoolInfo s.i).numBlks - 1 := by
    unfold uint
    omega
  have hpos : s.i + (p.mempoolInfo s.i).numBlks - 1 + 1 = s.i + (p.mempoolInfo s.i).numBlks := by
    omega
  rw [look, if_pos hsome]
  simp only [hi]
  rw [Nat.add_right_comm, hpos, uint_of_lt (by omega), uint_of_lt (by omega)]

theorem look_none (h : p.runs s.i = none) (ha : s.avail < 2 ^ 31) :
    p.look n s = { s with avail := s.avail + 1 } := by
  rw [look, runs_eq_none.mp h, if_neg (by simp), uint_of_lt (by omega)]

theorem settle_goes (h : s.avail ≠ n) (hi : s.i < 2 ^ 31) :
    p.settle n s = .inr { s with i := s.i + 1 } := by
  rw [settle, if_neg h, uint_of_lt (by omega)]

theorem settle_takes (hp : p.Valid) (h : s.avail = n) (hw : s.tmpBlkidx ≤ p.totalMemblks)
    (hi : s.i + 1 = s.tmpBlkidx + n) (ht : s.tmpBlkidx + n ≤ p.totalMemblks) :
    p.settle n s = .inl (some (p.address s.tmpBlkidx), p.withRun s.tmpBlkidx n) := by
  have hsize := lt_of_le_of_lt (Nat.mul_le_mul_right p.mempoolBlksz hw) hp.size_lt
  have htotal := hp.total_lt
  rw [settle, if_pos h, uint_of_lt (by omega), taken, hi, uint_of_lt (by omega)]
  rfl

theorem iteration_run (hp : p.Valid) (hi : s.i < s.maxBlkcnt) (h : p.runs s.i = some l)
    (hn : 0 < n) (hnt : n ≤ p.totalMemblks) (ha : a ≤ s.i) (hsa : s.i < a + n) :
    (p.iteration n s = .inl (none, p) ∧ p.mempoolBlkidx < n ∧ ¬p.RoomFrom n a) ∨
      (p.iteration n s = .inr (restarted n) ∧ n ≤ p.mempoolBlkidx ∧ ¬p.RoomFrom n a) ∨
      ∃ t, p.iteration n s = .inr t ∧ p.Aligned n t ∧ s.i < t.i ∧ a ≤ t.tmpBlkidx ∧
        (p.RoomFrom n a → p.RoomFrom n t.tmpBlkidx) := by
  have hb := hp.placed.bounds _ _ h
  have ht := hp.total_lt
  have hpast : p.RoomFrom n a → p.RoomFrom n (s.i + l) := fun hr ↦ hr.past h hb.1 ha hsa
  rw [iteration, if_pos ⟨by omega, hi⟩, look_run hp h (by omega)]
  dsimp only
  split
  case isTrue hout =>
    have hroom : ¬p.RoomFrom n a := fun hr ↦ not_room hout (hpast hr)
    split
    case isTrue hlt => exact .inl ⟨rfl, hlt, hroom⟩
    case isFalse hge =>
      refine .inr (.inl ⟨?_, not_lt.mp hge, hroom⟩)
      exact settle_goes (by dsimp only; omega) (by dsimp only; omega)
  case isFalse hfit =>
    refine .inr (.inr ⟨⟨s.i + l, 0, s.i + l + n, s.i + l⟩, ?_, ?_, ?_, ?_, hpast⟩)
    · rw [settle_goes (by dsimp only; omega) (by dsimp only; omega)]
      dsimp only
      rw [Nat.sub_add_cancel (by omega)]
    · exact ⟨hn, rfl, rfl, not_lt.mp hfit, hp.placed.boundary_end h,
        fun k hk hk' ↦ absurd hk' (not_lt.mpr hk)⟩
    · dsimp only
      omega
    · dsimp only
      omega

theorem aligned_step (hp : p.Valid) (hs : p.Aligned n s) :
    (∃ r, p.iteration n s = .inl r ∧
      (Vacant p.runs s.tmpBlkidx n ∧ r = (some (p.address s.tmpBlkidx), p.withRun s.tmpBlkidx n) ∨
        p.mempoolBlkidx < n ∧ ¬p.RoomFrom n s.tmpBlkidx ∧ r = (none, p))) ∨
      ∃ t, p.iteration n s = .inr t ∧
        (t = restarted n ∧ n ≤ p.mempoolBlkidx ∧ ¬p.RoomFrom n s.tmpBlkidx ∨
          (p.Aligned n t ∧ s.tmpBlkidx ≤ t.tmpBlkidx ∧
            (p.RoomFrom n s.tmpBlkidx → p.RoomFrom n t.tmpBlkidx)) ∧
          p.totalMemblks - t.i < p.totalMemblks - s.i) := by
  obtain ⟨ha, hi, hm, hf, hb, hv⟩ := hs
  have ht := hp.total_lt
  rcases hr : p.runs s.i with - | l
  · have hv' : ∀ k, s.tmpBlkidx ≤ k → k < s.i + 1 → p.runs k = none := by
      intro k hk hk'
      rcases Nat.lt_succ_iff_lt_or_eq.mp hk' with hlt | rfl
      · exact hv k hk hlt
      · exact hr
    have hit : p.iteration n s = p.settle n { s with avail := s.avail + 1 } := by
      rw [iteration, if_pos ⟨by omega, by omega⟩, look_none hr (by omega)]
      exact if_neg (by dsimp only; omega)
    rw [hit]
    by_cases hfound : s.avail + 1 = n
    · refine .inl ⟨_, settle_takes hp hfound (by dsimp only; omega) (by dsimp only; omega) hf, .inl ?_⟩
      exact ⟨hb.vacant fun k hk hk' ↦ hv' k hk (by omega), rfl⟩
    · refine .inr ⟨_, settle_goes hfound (by dsimp only; omega), .inr ⟨⟨?_, le_rfl, id⟩, ?_⟩⟩
      · exact ⟨by dsimp only; omega, by dsimp only; omega, hm, hf, hb, hv'⟩
      · dsimp only
        omega
  · have hrun := iteration_run (n := n) (a := s.tmpBlkidx) hp (by omega) hr (by omega) (by omega)
      (by omega) (by omega)
    obtain ⟨hit, hlt, hroom⟩ | ⟨hit, hle, hroom⟩ | ⟨t, hit, hal, hlt, hle, hroom⟩ := hrun
    · exact .inl ⟨_, hit, .inr ⟨hlt, hroom, rfl⟩⟩
    · exact .inr ⟨_, hit, .inl ⟨rfl, hle, hroom⟩⟩
    · refine .inr ⟨t, hit, .inr ⟨⟨hal, hle, hroom⟩, ?_⟩⟩
      omega

theorem restarted_step (hp : p.Valid) (hs : p.Restarted n s) :
    (p.iteration n s = .inl (none, p) ∧ ∀ k, 1 ≤ k → k < n → p.runs k = none) ∨
      ∃ t, p.iteration n s = .inr t ∧
        ((∃ k, 1 ≤ k ∧ k < n ∧ p.runs k ≠ none) ∧
            (t = restarted n ∧ ¬p.RoomFrom n 0 ∨
              p.Aligned n t ∧ (p.RoomFrom n 0 → p.RoomFrom n t.tmpBlkidx)) ∨
          p.Restarted n t ∧ n - t.i < n - s.i) := by
  obtain ⟨hpos, hle, hi, hm, htmp, hn, hv⟩ := hs
  have ht := hp.total_lt
  have hbt := hp.blkidx_le
  rcases Nat.lt_or_ge s.i n with hlt | hge
  · rcases hr : p.runs s.i with - | l
    · refine .inr ⟨{ s with i := s.i + 1, avail := s.avail + 1 }, ?_, .inr ⟨?_, ?_⟩⟩
      · rw [iteration, if_pos ⟨by omega, by omega⟩, look_none hr (by omega)]
        dsimp only
        rw [if_neg (by omega), settle_goes (by dsimp only; omega) (by dsimp only; omega)]
      · have hv' : ∀ k, 1 ≤ k → k < s.i + 1 → p.runs k = none := by
          intro k hk hk'
          rcases Nat.lt_succ_iff_lt_or_eq.mp hk' with hlt | rfl
          · exact hv k hk hlt
          · exact hr
        exact ⟨by dsimp only; omega, by dsimp only; omega, by dsimp only; omega, hm, htmp, hn, hv'⟩
      · dsimp only
        omega
    · have hstart : ∃ k, 1 ≤ k ∧ k < n ∧ p.runs k ≠ none := ⟨s.i, hpos, hlt, by rw [hr]; nofun⟩
      have hrun := iteration_run (n := n) (a := 0) hp (by omega) hr (by omega) (by omega) (by omega)
        (by omega)
      obtain ⟨-, hlt, -⟩ | ⟨hit, -, hroom⟩ | ⟨t, hit, hal, -, -, hroom⟩ := hrun
      · omega
      · exact .inr ⟨_, hit, .inl ⟨hstart, .inl ⟨rfl, hroom⟩⟩⟩
      · exact .inr ⟨t, hit, .inl ⟨hstart, .inr ⟨hal, hroom⟩⟩⟩
  · refine .inl ⟨?_, fun k hk hk' ↦ hv k hk (by omega)⟩
    rw [iteration, if_neg (by omega)]

/-- The scan that goes on with `s` takes `n` blocks at block `a` or later that were free. -/
def Takes (p : Mempool) (n a : ℕ) (s : Scan) : Prop :=
  ∃ w, a ≤ w ∧ w + n ≤ p.totalMemblks ∧ Vacant p.runs w n ∧
    Loop.Ends (p.iteration n) s (some (p.address w), p.withRun w n)

theorem Takes.room (h : p.Takes n a s) : p.RoomFrom n a := by
  obtain ⟨w, haw, hw, hv, -⟩ := h
  exact ⟨w, haw, hw, hv⟩

theorem aligned_scan (hp : p.Valid) (hs : p.Aligned n s) :
    p.Takes n s.tmpBlkidx s ∨ ¬p.RoomFrom n s.tmpBlkidx ∧
      (p.mempoolBlkidx < n ∧ Loop.Ends (p.iteration n) s (none, p) ∨
        n ≤ p.mempoolBlkidx ∧ TransGen (Loop.Goes (p.iteration n)) s (restarted n)) := by
  have h := Loop.ends_or_exits (p.iteration n)
    (I := fun t ↦ p.Aligned n t ∧ s.tmpBlkidx ≤ t.tmpBlkidx ∧
      (p.RoomFrom n s.tmpBlkidx → p.RoomFrom n t.tmpBlkidx))
    (E := fun t ↦ t = restarted n ∧ n ≤ p.mempoolBlkidx ∧ ¬p.RoomFrom n s.tmpBlkidx)
    (P := fun r ↦ (∃ w, s.tmpBlkidx ≤ w ∧ w + n ≤ p.totalMemblks ∧ Vacant p.runs w n ∧
        r = (some (p.address w), p.withRun w n)) ∨
      p.mempoolBlkidx < n ∧ ¬p.RoomFrom n s.tmpBlkidx ∧ r = (none, p))
    (fun t ↦ p.totalMemblks - t.i) ?_ ⟨hs, le_rfl, id⟩
  · obtain ⟨r, hr, ⟨w, hle, hw, hv, rfl⟩ | ⟨hlt, hroom, rfl⟩⟩ | ⟨t, ht, rfl, hle, hroom⟩ := h
    · exact .inl ⟨w, hle, hw, hv, hr⟩
    · exact .inr ⟨hroom, .inl ⟨hlt, hr⟩⟩
    · exact .inr ⟨hroom, .inr ⟨hle, ht⟩⟩
  · intro t ⟨hal, hst, hkeep⟩
    obtain ⟨r, hr, ⟨hv, rfl⟩ | ⟨hlt, hroom, rfl⟩⟩ |
      ⟨u, hu, ⟨rfl, hle, hroom⟩ | ⟨⟨hal', htu, hroom⟩, hlt⟩⟩ := aligned_step hp hal
    · exact .inl ⟨_, hr, .inl ⟨_, hst, hal.fits, hv, rfl⟩⟩
    · exact .inl ⟨_, hr, .inr ⟨hlt, fun h ↦ hroom (hkeep h), rfl⟩⟩
    · exact .inr ⟨_, hu, .inl ⟨rfl, hle, fun h ↦ hroom (hkeep h)⟩⟩
    · exact .inr ⟨u, hu, .inr ⟨⟨hal', hst.trans htu, fun h ↦ hroom (hkeep h)⟩, hlt⟩⟩

/-- A run starts with one of the blocks from block 1 on that the scan looks at after it was moved
back to the front. -/
def RunAhead (p : Mempool) (n : ℕ) : Prop := ∃ k, 1 ≤ k ∧ k < n ∧ (p.mempoolInfo k).memptr.isSome

theorem runAhead_iff : p.RunAhead n ↔ ∃ k, 1 ≤ k ∧ k < n ∧ p.runs k ≠ none := by
  simp only [RunAhead, ne_eq, runs_eq_none, Option.isSome_iff_ne_none]

theorem restarted_scan (hp : p.Valid) (hn : 0 < n) (hle : n ≤ p.mempoolBlkidx) :
    (Loop.Ends (p.iteration n) (restarted n) (none, p) ∧ ¬p.RunAhead n) ∨
      p.RunAhead n ∧ ((∃ t, TransGen (Loop.Goes (p.iteration n)) (restarted n) t ∧ p.Aligned n t ∧
          (p.RoomFrom n 0 → p.RoomFrom n t.tmpBlkidx)) ∨
        TransGen (Loop.Goes (p.iteration n)) (restarted n) (restarted n) ∧ ¬p.RoomFrom n 0) := by
  have hs : p.Restarted n (restarted n) :=
    ⟨le_rfl, hn, rfl, rfl, rfl, hle, fun k hk hk' ↦ absurd hk' (not_lt.mpr hk)⟩
  have h := Loop.ends_or_exits (p.iteration n) (I := p.Restarted n)
    (E := fun t ↦ p.RunAhead n ∧ (t = restarted n ∧ ¬p.RoomFrom n 0 ∨
      p.Aligned n t ∧ (p.RoomFrom n 0 → p.RoomFrom n t.tmpBlkidx)))
    (P := fun r ↦ ¬p.RunAhead n ∧ r = (none, p)) (fun t ↦ n - t.i) ?_ hs
  · obtain ⟨r, hr, hno, rfl⟩ | ⟨t, ht, hrun, ⟨rfl, hroom⟩ | ⟨hal, hroom⟩⟩ := h
    · exact .inl ⟨hr, hno⟩
    · exact .inr ⟨hrun, .inr ⟨ht, hroom⟩⟩
    · exact .inr ⟨hrun, .inl ⟨t, ht, hal, hroom⟩⟩
  · intro t ht
    simp only [runAhead_iff]
    obtain ⟨hr, hno⟩ | ⟨u, hu, h | h⟩ := restarted_step hp ht
    · refine .inl ⟨_, hr, ?_, rfl⟩
      rintro ⟨k, hk, hkn, hsome⟩
      exact hsome (hno k hk hkn)
    · exact .inr ⟨u, hu, .inl h⟩
    · exact .inr ⟨u, hu, .inr h⟩

def startBlock (p : Mempool) (n : ℕ) : ℕ :=
  if p.mempoolBlkidx + n ≤ p.totalMemblks then p.mempoolBlkidx else 0

theorem start_aligned (hp : p.Valid) (hn : 0 < n) (hle : n ≤ p.totalMemblks) :
    p.Aligned n (p.start n) ∧ (p.start n).tmpBlkidx = p.startBlock n := by
  have ht := hp.total_lt
  have hb := hp.blkidx_le
  have hempty : ∀ a k, a ≤ k → k < a → p.runs k = none := fun a k h h' ↦ absurd h' (not_lt.mpr h)
  rw [start, startBlock, uint_of_lt (by omega)]
  split
  case isTrue h =>
    rw [if_neg (by omega)]
    exact ⟨⟨hn, rfl, (Nat.zero_add n).symm, by dsimp only; omega, boundary_zero, hempty 0⟩, rfl⟩
  case isFalse h =>
    rw [if_pos (by omega)]
    exact ⟨⟨hn, rfl, rfl, by dsimp only; omega, hp.blkidx_boundary, hempty _⟩, rfl⟩

/-- No blocks and more blocks than the pool has are never given, also where the sums wrap. -/
theorem start_none (hp : p.Valid) (hn : n < 2 ^ 32) (h : n = 0 ∨ p.totalMemblks < n) :
    Loop.Ends (p.iteration n) (p.start n) (none, p) := by
  have ht := hp.total_lt
  have hb := hp.blkidx_le
  apply Loop.ends_of_leaves
  by_cases hwrap : n = 0 ∨ 2 ^ 32 ≤ p.mempoolBlkidx + n
  · have hle : uint (p.mempoolBlkidx + n) ≤ p.mempoolBlkidx := by
      unfold uint
      omega
    rw [start, if_neg (by omega), iteration, if_neg (by dsimp only; omega)]
  · rw [start, uint_of_lt (by omega), if_pos (by omega), iteration]
    split
    case isFalse => rfl
    case isTrue h0 =>
      have hmax : p.totalMemblks < (p.look n ⟨0, 0, n, 0⟩).maxBlkcnt := by
        rcases hr : p.runs 0 with - | l
        · rw [look_none hr (by dsimp only; omega)]
          dsimp only
          omega
        · have hl := hp.blkidx_boundary 0 l hr (hp.blkidx_pos 0 l hr)
          rw [look_run hp hr (by dsimp only; omega)]
          dsimp only
          omega
      rw [if_pos hmax, if_pos (by omega)]

end QdmaTrafficGen.QdmaNet.Mempool
