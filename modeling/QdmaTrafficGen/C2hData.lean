import QdmaTrafficGen.C2hFreeList

open Function

namespace QdmaTrafficGen.StC2h

namespace Mem

variable {m : Mem} {pg pg' offset offset' n : ℕ} {data : List ℕ}

theorem read_write (m : Mem) (pg offset : ℕ) (data : List ℕ) :
    (m.write (some (pg, offset)) data).read pg offset data.length = data := by
  refine List.ext_getElem (by simp [read]) fun i _ hi ↦ ?_
  simp only [read, write, List.getElem_map, List.getElem_range, update_self]
  rw [if_pos (by omega), Nat.add_sub_cancel_left, List.getD_eq_getElem?_getD,
    List.getElem?_eq_getElem hi, Option.getD_some]

theorem read_write_of_disjoint
    (h : pg ≠ pg' ∨ offset + data.length ≤ offset' ∨ offset' + n ≤ offset) :
    (m.write (some (pg, offset)) data).read pg' offset' n = m.read pg' offset' n := by
  refine List.map_congr_left fun i hi ↦ ?_
  have hi := List.mem_range.1 hi
  rw [write]
  by_cases hpg : pg' = pg
  · rw [hpg, update_self, if_neg (by omega)]
  · rw [update_of_ne hpg]

end Mem

theorem length_bufChunk (bufsz : ℕ) (pkt : List ℕ) (i : ℕ) :
    (bufChunk bufsz pkt i).length = min bufsz (pkt.length - i * bufsz) := by
  rw [bufChunk, List.length_take, List.length_drop]

variable {c : Conf} {f : Flq} {r R F N : ℕ} {pkt : List ℕ}

def readBuf (c : Conf) (m : Mem) (j n : ℕ) : List ℕ :=
  m.read (j / c.numBufsPerPg) (j % c.numBufsPerPg * c.descBufSize) n

theorem readBuf_write (m : Mem) (j : ℕ) (data : List ℕ) :
    readBuf c (m.write (some (j / c.numBufsPerPg, j % c.numBufsPerPg * c.descBufSize)) data) j
      data.length = data := m.read_write _ _ _

theorem readBuf_write_of_ne (hc : c.Ok) (m : Mem) {j x n : ℕ} {data : List ℕ} (hne : j ≠ x)
    (hd : data.length ≤ c.c2hBufsz) (hn : n ≤ c.c2hBufsz) :
    readBuf c (m.write (some (j / c.numBufsPerPg, j % c.numBufsPerPg * c.descBufSize)) data) x n =
      readBuf c m x n := by
  have hle := hc.descBufSize.2.1
  rw [← hc.descBufSize.1] at hle
  refine Mem.read_write_of_disjoint ?_
  by_cases hpg : j / c.numBufsPerPg = x / c.numBufsPerPg
  · right
    have hj := Nat.div_add_mod j c.numBufsPerPg
    have hx := Nat.div_add_mod x c.numBufsPerPg
    rw [hpg] at hj
    rcases Nat.lt_or_gt_of_ne (show j % c.numBufsPerPg ≠ x % c.numBufsPerPg by omega) with hlt | hgt
    · have hmul := mul_add_le (n := c.descBufSize) hlt
      omega
    · have hmul := mul_add_le (n := c.descBufSize) hgt
      omega
  · exact .inl hpg

theorem dmaPacket_spec (hc : c.Ok) (h : Pages c f r R F) (hN : R ≤ N) (m : Mem)
    (hF : N + bufsFor c.c2hBufsz pkt.length ≤ F) :
    (∀ i < bufsFor c.c2hBufsz pkt.length,
      readBuf c (dmaPacket c m f.sdesc (N % c.rngsz) pkt) (N + i) (bufChunk c.c2hBufsz pkt i).length =
        bufChunk c.c2hBufsz pkt i) ∧
    ∀ x < N, ∀ n ≤ c.c2hBufsz,
      readBuf c (dmaPacket c m f.sdesc (N % c.rngsz) pkt) x n = readBuf c m x n := by
  have hlen (i : ℕ) : (bufChunk c.c2hBufsz pkt i).length ≤ c.c2hBufsz :=
    (length_bufChunk _ _ i).trans_le (Nat.min_le_left _ _)
  rw [dmaPacket]
  suffices hk : ∀ k ≤ bufsFor c.c2hBufsz pkt.length, ∃ m', (List.range k).foldl
      (fun m i ↦ m.write (f.sdesc ((N % c.rngsz + i) % c.rngsz)).dmaAddr (bufChunk c.c2hBufsz pkt i))
      m = m' ∧
      (∀ i < k, readBuf c m' (N + i) (bufChunk c.c2hBufsz pkt i).length = bufChunk c.c2hBufsz pkt i) ∧
      ∀ x < N, ∀ n ≤ c.c2hBufsz, readBuf c m' x n = readBuf c m x n by
    obtain ⟨m', hm', hdata, hother⟩ := hk _ le_rfl
    rw [hm']
    exact ⟨hdata, hother⟩
  intro k
  induction k with
  | zero => exact fun _ ↦ ⟨m, rfl, fun i hi ↦ absurd hi (Nat.not_lt_zero i), fun _ _ _ _ ↦ rfl⟩
  | succ k ih =>
    intro hk
    obtain ⟨m', hm', hdata, hother⟩ := ih (by omega)
    obtain ⟨_, hbuf⟩ := h.buf (N + k) (by omega) (by omega)
    rw [List.range_succ, List.foldl_concat, hm', Nat.mod_add_mod, hbuf]
    refine ⟨_, rfl, fun i hi ↦ ?_, fun x hx n hn ↦ ?_⟩
    · rcases Nat.lt_succ_iff_lt_or_eq.1 hi with hlt | rfl
      · rw [readBuf_write_of_ne hc m' (by omega) (hlen k) (hlen i), hdata i hlt]
      · exact readBuf_write m' _ _
    · rw [readBuf_write_of_ne hc m' (by omega) (hlen k) hn, hother x hx n hn]

/-- The driver copies the packet that lies in the buffers from `N` on. -/
theorem copyPacket_spec (hc : c.Ok) {sdesc : ℕ → SwSg} {m : Mem} {nb : ℕ}
    (hlo : nb * c.c2hBufsz < pkt.length) (hhi : pkt.length ≤ (nb + 1) * c.c2hBufsz)
    (hbuf : ∀ i ≤ nb, ∃ dmaAddr, sdesc ((N + i) % c.rngsz) =
      ⟨some ((N + i) / c.numBufsPerPg), (N + i) % c.numBufsPerPg * c.descBufSize, dmaAddr,
        if i = nb then pkt.length - nb * c.c2hBufsz else c.c2hBufsz⟩)
    (hdata : ∀ i ≤ nb, readBuf c m (N + i) (bufChunk c.c2hBufsz pkt i).length =
      bufChunk c.c2hBufsz pkt i) :
    copyPacket c m sdesc pkt.length (nb + 1) (N % c.rngsz) 0 = pkt := by
  suffices hk : ∀ k i, i + k = nb + 1 → copyPacket c m sdesc pkt.length k ((N + i) % c.rngsz)
      (i * c.c2hBufsz) = pkt.drop (i * c.c2hBufsz) by
    have h := hk (nb + 1) 0 (Nat.zero_add _)
    rwa [Nat.add_zero, Nat.zero_mul, List.drop_zero] at h
  intro k
  induction k with
  | zero =>
    intro i hi
    obtain rfl : i = nb + 1 := hi
    rw [copyPacket, List.drop_of_length_le hhi]
  | succ k ih =>
    intro i hi
    have hmul := Nat.mul_le_mul_right c.c2hBufsz (show i ≤ nb by omega)
    obtain ⟨_, hb⟩ := hbuf i (by omega)
    have hread := hdata i (by omega)
    have hcopy : min (if i = nb then pkt.length - nb * c.c2hBufsz else c.c2hBufsz)
        (pkt.length - i * c.c2hBufsz) = (bufChunk c.c2hBufsz pkt i).length := by
      rw [length_bufChunk]
      rw [Nat.add_mul] at hhi
      split
      next heq =>
        subst heq
        omega
      next => rfl
    rw [copyPacket, if_pos (by omega), hb]
    dsimp only
    rw [hcopy]
    have hdrop : pkt.drop (i * c.c2hBufsz) =
        bufChunk c.c2hBufsz pkt i ++ pkt.drop ((i + 1) * c.c2hBufsz) := by
      rw [bufChunk, Nat.succ_mul, ← List.drop_drop, List.take_append_drop]
    rw [hdrop]
    refine congrArg₂ (· ++ ·) hread ?_
    rcases Nat.eq_zero_or_pos k with rfl | hk
    · obtain rfl : i = nb := by omega
      rw [copyPacket, List.drop_of_length_le hhi]
    · have hfull : (bufChunk c.c2hBufsz pkt i).length = c.c2hBufsz := by
        have hmul' := mul_add_le (n := c.c2hBufsz) (show i < nb by omega)
        rw [length_bufChunk]
        omega
      have hnext := succ_mod_eq (Nat.zero_lt_of_lt hc.rngsz) (N + i)
      rw [hfull, hnext, ← Nat.succ_mul]
      exact ih (i + 1) (by omega)

end QdmaTrafficGen.StC2h
