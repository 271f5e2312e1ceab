import QdmaTrafficGen.Sequential.Loop
import QdmaTrafficGen.Sequential.Blocks
import Mathlib.Tactic.IntervalCases

open Function Sequential

namespace QdmaTrafficGen.QdmaNet

def uint (x : ℕ) : ℕ := x % 2 ^ 32

theorem uint_of_lt {x : ℕ} (h : x < 2 ^ 32) : uint x = x := Nat.mod_eq_of_lt h

/-- `struct qdma_net_meminfo`, a pointer to an entry of the metadata being its index. -/
structure Meminfo where
  memptr : Option ℕ
  numBlks : ℕ

structure Mempool where
  mempool : ℕ
  mempoolBlkidx : ℕ
  mempoolBlksz : ℕ
  totalMemblks : ℕ
  mempoolInfo : ℕ → Meminfo

def sizeofMeminfo : ℕ := 16

def ENOMEM : ℤ := 12

namespace Mempool

/-- `qdma_net_mempool_create`, with `kmalloc` giving the address of what it allocates. -/
def create (kmalloc : ℕ → Option ℕ) (entrySize maxEntries : ℕ) : Except ℤ Mempool :=
  match kmalloc (maxEntries * (entrySize + sizeofMeminfo) % 2 ^ 64) with
  | none => .error (-ENOMEM)
  | some mempool => .ok ⟨mempool, 0, entrySize, maxEntries, fun _ ↦ ⟨none, 0⟩⟩

structure Scan where
  i : ℕ
  avail : ℕ
  maxBlkcnt : ℕ
  tmpBlkidx : ℕ

variable (p : Mempool) (numBlks : ℕ)

/-- The scan starts at the rotating index, or at the front if the blocks do not fit behind it. -/
def start : Scan :=
  if uint (p.mempoolBlkidx + numBlks) > p.totalMemblks then ⟨0, 0, numBlks, 0⟩
  else ⟨p.mempoolBlkidx, 0, uint (p.mempoolBlkidx + numBlks), p.mempoolBlkidx⟩

/-- The scan skips the run that starts with the current block, or counts the block. -/
def look (s : Scan) : Scan :=
  if (p.mempoolInfo s.i).memptr.isSome then
    -- `num_blks - 1` wraps around if the run is empty
    let i := uint (s.i + uint ((p.mempoolInfo s.i).numBlks + (2 ^ 32 - 1)))
    ⟨i, 0, uint (i + numBlks + 1), uint (i + 1)⟩
  else
    { s with avail := uint (s.avail + 1) }

/-- The metadata and the rotating index once the blocks from `tmpBlkidx` on have been taken. -/
def taken (s : Scan) : Mempool :=
  { p with
    mempoolInfo := update p.mempoolInfo s.tmpBlkidx ⟨some s.tmpBlkidx, numBlks⟩
    mempoolBlkidx := uint (s.i + 1) }

/-- The end of one iteration: the blocks are taken when enough of them have been counted. -/
def settle (s : Scan) : (Option ℕ × Mempool) ⊕ Scan :=
  if s.avail = numBlks then
    .inl (some (p.mempool + uint (s.tmpBlkidx * p.mempoolBlksz)), p.taken numBlks s)
  else
    .inr { s with i := uint (s.i + 1) }

def iteration (s : Scan) : (Option ℕ × Mempool) ⊕ Scan :=
  if s.i < p.totalMemblks ∧ s.i < s.maxBlkcnt then
    let s := p.look numBlks s
    if s.maxBlkcnt > p.totalMemblks then
      -- `i` is 0 again, but the end of the iteration still adds 1 to it
      if numBlks > p.mempoolBlkidx then .inl (none, p) else p.settle numBlks ⟨0, 0, numBlks, 0⟩
    else
      p.settle numBlks s
  else
    .inl (none, p)

/-- `qdma_net_mempool_alloc`, if its scan ends within `k` iterations. -/
def alloc (k : ℕ) : Option (Option ℕ × Mempool) := Loop.run (p.iteration numBlks) k (p.start numBlks)

/-- `qdma_net_mempool_alloc` returns `memptr` and leaves the pool `q`. -/
def Allocs (memptr : Option ℕ) (q : Mempool) : Prop :=
  Loop.Ends (p.iteration numBlks) (p.start numBlks) (memptr, q)

def blockOf (memptr : ℕ) : ℕ :=
  (((memptr : ℤ) - p.mempool).tdiv p.mempoolBlksz % 2 ^ 32).toNat

def free : Option ℕ → Mempool
  | none => p
  | some memptr =>
    let idx := p.blockOf memptr
    if idx ≥ p.totalMemblks then p
    else { p with mempoolInfo := update p.mempoolInfo idx ⟨none, 0⟩ }

/-- The runs of blocks that the metadata records, each at its first block. -/
def runs (k : ℕ) : Option ℕ :=
  if (p.mempoolInfo k).memptr.isSome then some (p.mempoolInfo k).numBlks else none

structure Valid : Prop where
  placed : Blocks.Placed p.runs p.totalMemblks
  blkidx_le : p.mempoolBlkidx ≤ p.totalMemblks
  blkidx_boundary : Blocks.Boundary p.runs p.mempoolBlkidx
  blkidx_pos : ∀ s l, p.runs s = some l → 0 < p.mempoolBlkidx
  blksz_pos : 0 < p.mempoolBlksz
  size_lt : p.totalMemblks * p.mempoolBlksz < 2 ^ 31

variable {p : Mempool} {numBlks : ℕ}

theorem allocs_iff {memptr : Option ℕ} {q : Mempool} :
    p.Allocs numBlks memptr q ↔ ∃ k, p.alloc numBlks k = some (memptr, q) := Iff.rfl

theorem Valid.total_lt (h : p.Valid) : p.totalMemblks < 2 ^ 31 :=
  lt_of_le_of_lt (Nat.le_mul_of_pos_right _ h.blksz_pos) h.size_lt

/-- `kmalloc` does not allocate more than its documented maximum, which is below 2 GiB. -/
def KmallocLimited (kmalloc : ℕ → Option ℕ) : Prop := ∀ size, 2 ^ 31 ≤ size → kmalloc size = none

theorem runs_of_isSome {k : ℕ} (h : (p.mempoolInfo k).memptr.isSome) :
    p.runs k = some (p.mempoolInfo k).numBlks := if_pos h

theorem runs_eq_none {k : ℕ} : p.runs k = none ↔ (p.mempoolInfo k).memptr = none := by
  unfold runs
  split
  case isTrue h => simpa [← Option.isSome_iff_ne_none] using h
  case isFalse h => simpa using h

theorem runs_update {m : Meminfo} {k b : ℕ} :
    runs { p with mempoolInfo := update p.mempoolInfo k m, mempoolBlkidx := b } =
      update p.runs k (if m.memptr.isSome then some m.numBlks else none) := by
  funext j
  by_cases h : j = k
  · subst h
    simp [runs]
  · simp [runs, h]

/-- A product that exceeds 64 bits does not come out small when one factor has 32 bits and the
other hardly more. -/
theorem mul_lt_of_mod_lt {m e : ℕ} (hm : m < 2 ^ 32) (he : e < 2 ^ 32 + 16)
    (h : m * e % 2 ^ 64 < 2 ^ 31) : m * e < 2 ^ 31 := by
  rcases Nat.lt_or_ge (m * e) (2 ^ 64) with hlt | hge
  · rwa [Nat.mod_eq_of_lt hlt] at h
  · obtain ⟨a, ha⟩ : ∃ a, m + a = 2 ^ 32 := ⟨2 ^ 32 - m, by omega⟩
    have hsum : m * e + a * e = 2 ^ 32 * e := by rw [← Nat.add_mul, ha]
    have hlt : a < 16 := by
      by_contra hge
      have := Nat.mul_le_mul_right e (not_lt.mp hge)
      omega
    rw [Nat.mod_eq_sub_mod hge, Nat.mod_eq_of_lt (by omega)] at h
    interval_cases a <;> omega

theorem create_valid {kmalloc : ℕ → Option ℕ} (hk : KmallocLimited kmalloc) {e m : ℕ}
    (he : 0 < e) (he' : e < 2 ^ 32) (hm : m < 2 ^ 32) (h : create kmalloc e m = .ok p) : p.Valid := by
  unfold create at h
  split at h
  · nomatch h
  · next mempool hsome =>
    obtain rfl := Except.ok.inj h
    have hsize : m * (e + sizeofMeminfo) < 2 ^ 31 := by
      apply mul_lt_of_mod_lt hm
      · rw [sizeofMeminfo]
        omega
      · by_contra hge
        rw [hk _ (not_lt.mp hge)] at hsome
        nomatch hsome
    have hnone : ∀ k s, runs ⟨mempool, 0, e, m, fun _ ↦ ⟨none, 0⟩⟩ k ≠ some s := nofun
    refine ⟨⟨fun s l hs ↦ absurd hs (hnone s l), fun s l hs ↦ absurd hs (hnone s l)⟩,
      Nat.zero_le _, Blocks.boundary_zero, fun s l hs ↦ absurd hs (hnone s l), he, ?_⟩
    exact lt_of_le_of_lt (Nat.mul_le_mul_left m (Nat.le_add_right e _)) hsize

end Mempool

end QdmaTrafficGen.QdmaNet
