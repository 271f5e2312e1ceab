import QdmaTrafficGen.C2hBuffers
import QdmaTrafficGen.Clocked.Ring

open Function Clocked Sequential

namespace QdmaTrafficGen.StC2h

/-- How many of the buffers of page `k` are in the ring, when the buffers from `R` to `F` are, with
`n` in a page. -/
def outstanding (n k R F : ℕ) : ℕ := min F (k * n + n) - max R (k * n)

section

variable {n k q R F : ℕ}

theorem mul_add_le (h : k < q) : k * n + n ≤ q * n := by
  rw [← Nat.succ_mul]
  exact Nat.mul_le_mul_right n h

theorem pages_apart (h : k ≠ q) : k * n + n ≤ q * n ∨ q * n + n ≤ k * n :=
  (Nat.lt_or_gt_of_ne h).imp mul_add_le mul_add_le

theorem div_bounds (hn : 0 < n) (R : ℕ) : R / n * n ≤ R ∧ R < R / n * n + n := by
  have hdiv := Nat.div_add_mod R n
  have hmod := Nat.mod_lt R hn
  rw [Nat.mul_comm] at hdiv
  omega

theorem div_eq (h : q * n ≤ R) (h' : R < q * n + n) : R / n = q :=
  Nat.div_eq_of_lt_le h (by rwa [Nat.succ_mul])

theorem mod_eq_sub (R n : ℕ) : R % n = R - R / n * n := by
  rw [Nat.mul_comm, ← Nat.mod_eq_sub_mul_div]

theorem eq_of_mod_eq {P r k q : ℕ} (hk : r ≤ k ∧ k < r + P) (hq : r ≤ q ∧ q < r + P)
    (h : k % P = q % P) : k = q := by
  obtain ⟨i, rfl⟩ := Nat.exists_eq_add_of_le hk.1
  obtain ⟨j, rfl⟩ := Nat.exists_eq_add_of_le hq.1
  rw [(Ring.slot_inj (p := r) (by omega) (by omega)).1 h]

end

/-- The buffers of the free list from the `R`-th to the `F`-th are in the ring, and the pages from `r`
on are in the list: buffer `j` is the part `j % n` of page `j / n`. -/
structure Pages (c : Conf) (f : Flq) (r R F : ℕ) : Prop where
  recycleIdx : f.recycleIdx = r
  allocIdx : f.allocIdx = F / c.numBufsPerPg
  allocated : f.allocated = r + c.numPages
  page : ∀ k, r ≤ k → k < r + c.numPages → f.pgSdesc (k % c.numPages) =
    ⟨k, true, outstanding c.numBufsPerPg k R F * c.descBufSize⟩
  buf : ∀ j, R ≤ j → j < F → ∃ len, f.sdesc (j % c.rngsz) =
    ⟨some (j / c.numBufsPerPg), j % c.numBufsPerPg * c.descBufSize,
      some (j / c.numBufsPerPg, j % c.numBufsPerPg * c.descBufSize), len⟩
  refs : ∀ k, f.refs k = (if r ≤ k ∧ k < r + c.numPages then 1 else 0) +
    (min F (k * c.numBufsPerPg + c.numBufsPerPg) - k * c.numBufsPerPg)
  le : R ≤ F
  size : F ≤ R + c.rngsz
  recycled : r ≤ R / c.numBufsPerPg
  fit : F ≤ (r + c.numPages) * c.numBufsPerPg

namespace Pages

variable {c : Conf} {f g : Flq} {r R F k q : ℕ}

theorem mask (hc : c.Ok) (k : ℕ) : k &&& c.numPgsMask = k % c.numPages := by
  obtain ⟨⟨p, hp⟩, -⟩ := hc.numPages
  rw [Conf.numPgsMask, hp, Nat.and_two_pow_sub_one_eq_mod]

theorem numPages_pos (hc : c.Ok) : 0 < c.numPages := Nat.zero_lt_of_lt hc.numPages.2

theorem descBufSize_pos (hc : c.Ok) : 0 < c.descBufSize := by
  rw [hc.descBufSize.1]
  exact Nat.two_pow_pos _

theorem fits_iff (hc : c.Ok) {o : ℕ} :
    o * c.descBufSize + c.descBufSize ≤ c.maxPgOffset ↔ o < c.numBufsPerPg := by
  rw [hc.maxPgOffset.2, ← Nat.succ_mul, Nat.mul_le_mul_right_iff (descBufSize_pos hc),
    Nat.succ_le_iff]

theorem fit_of (hc : c.Ok) (hF : F ≤ R + c.rngsz) :
    F ≤ (R / c.numBufsPerPg + c.numPages) * c.numBufsPerPg := by
  have hn := hc.maxPgOffset.1
  have hP := (Nat.div_lt_iff_lt_mul hn).1 hc.numPages.2
  have hR := (div_bounds hn R).2
  have hr := hc.rngsz
  rw [Nat.add_mul]
  omega

theorem lt_window (h : Pages c f r R F) (hk : k * c.numBufsPerPg < F) : k < r + c.numPages := by
  by_contra hge
  have hmul := Nat.mul_le_mul_right c.numBufsPerPg (not_lt.1 hge)
  have hfit := h.fit
  omega

theorem page_update {R' F' : ℕ} (h : Pages c f r R F) {pg : PgSg} (hq : r ≤ q ∧ q < r + c.numPages)
    (hpg : pg = ⟨q, true, outstanding c.numBufsPerPg q R' F' * c.descBufSize⟩)
    (ho : ∀ k, r ≤ k → k < r + c.numPages → k ≠ q →
      outstanding c.numBufsPerPg k R' F' = outstanding c.numBufsPerPg k R F) :
    ∀ k, r ≤ k → k < r + c.numPages → update f.pgSdesc (q % c.numPages) pg (k % c.numPages) =
      ⟨k, true, outstanding c.numBufsPerPg k R' F' * c.descBufSize⟩ := by
  intro k hk hk'
  by_cases hkq : k = q
  · rw [hkq, update_self, hpg]
  · rw [update_of_ne fun he ↦ hkq (eq_of_mod_eq ⟨hk, hk'⟩ hq he), h.page k hk hk', ho k hk hk' hkq]

theorem giveBack (hc : c.Ok) (h : Pages c f r R F) {m : ℕ} (hR : R < F)
    (hm : R + m ≤ min F (R / c.numBufsPerPg * c.numBufsPerPg + c.numBufsPerPg)) :
    Pages c { f with
      pgSdesc := update f.pgSdesc (R / c.numBufsPerPg % c.numPages) ⟨R / c.numBufsPerPg, true,
        outstanding c.numBufsPerPg (R / c.numBufsPerPg) R F * c.descBufSize -
          m * c.descBufSize⟩ } r (R + m) F := by
  have hn := hc.maxPgOffset.1
  obtain ⟨hlo, hhi⟩ := div_bounds hn R
  have hsize := h.size
  refine { h with
    page := h.page_update ⟨h.recycled, h.lt_window (by omega)⟩ ?_ fun k hk hk' hkq ↦ ?_
    buf := fun j hj hj' ↦ h.buf j (by omega) hj'
    le := by omega
    size := by omega
    recycled := h.recycled.trans (Nat.div_le_div_right (Nat.le_add_right R m)) }
  · rw [← Nat.sub_mul, outstanding, outstanding]
    congr 2
    omega
  · rw [outstanding, outstanding]
    have hapart := pages_apart (n := c.numBufsPerPg) hkq
    omega

theorem returns (hc : c.Ok) (h : Pages c f r R F) (hr : r = R / c.numBufsPerPg) {count : ℕ}
    (hcount : R + count ≤ F) : ∃ g, Loop.Ends (returnBody c count) (0, f.recycleIdx, f) g ∧
      Pages c g r (R + count) F ∧ g.sdesc = f.sdesc := by
  have hn := hc.maxPgOffset.1
  refine Loop.ends_of_measure (returnBody c count)
    (I := fun s ↦ s.1 ≤ count ∧ Pages c s.2.2 r (R + s.1) F ∧ s.2.2.sdesc = f.sdesc ∧
      (s.1 < count → s.2.1 = (R + s.1) / c.numBufsPerPg))
    (fun s ↦ count - s.1) ?_ ⟨Nat.zero_le _, h, rfl, fun _ ↦ h.recycleIdx.trans hr⟩
  rintro ⟨i, nRecycle, f'⟩ ⟨hi, hp, hs, hidx⟩
  dsimp only at hi hp hs hidx
  rw [returnBody]
  by_cases hlt : i < count
  swap
  · obtain rfl : i = count := by omega
    exact .inl ⟨f', if_neg hlt, hp, hs⟩
  rw [if_pos hlt, hidx hlt, mask hc]
  obtain ⟨hlo, hhi⟩ := div_bounds hn (R + i)
  have hpage := hp.page _ hp.recycled (hp.lt_window (by omega))
  have hshift : (outstanding c.numBufsPerPg ((R + i) / c.numBufsPerPg) (R + i) F * c.descBufSize)
      >>> c.descPgShift = outstanding c.numBufsPerPg ((R + i) / c.numBufsPerPg) (R + i) F := by
    rw [Nat.shiftRight_eq_div_pow, ← hc.descBufSize.1]
    exact Nat.mul_div_cancel _ (descBufSize_pos hc)
  have hout : outstanding c.numBufsPerPg ((R + i) / c.numBufsPerPg) (R + i) F =
      min F ((R + i) / c.numBufsPerPg * c.numBufsPerPg + c.numBufsPerPg) - (R + i) := by
    rw [outstanding, Nat.max_eq_left hlo]
  dsimp only
  rw [hpage]
  dsimp only
  rw [hshift]
  set m := min (outstanding c.numBufsPerPg ((R + i) / c.numBufsPerPg) (R + i) F) (count - i) with hm
  have hm0 : 0 < m := by omega
  refine .inr ⟨_, rfl, ⟨by dsimp only; omega, ?_, hs, fun hmore ↦ ?_⟩, by dsimp only; omega⟩
  · dsimp only
    rw [← Nat.add_assoc]
    exact hp.giveBack hc (by omega) (by omega)
  · -- the page has no more buffers in the ring, since more are to be given back
    dsimp only at hmore ⊢
    have hall : m = outstanding c.numBufsPerPg ((R + i) / c.numBufsPerPg) (R + i) F := by omega
    rw [hall, Nat.sub_self, if_pos rfl]
    exact (div_eq (by rw [Nat.succ_mul]; omega) (by rw [Nat.succ_mul]; omega)).symm

theorem replace (h : Pages c f r R F) (hlt : r < R / c.numBufsPerPg) (hn : 0 < c.numBufsPerPg) :
    Pages c { f with
      pgSdesc := update f.pgSdesc (r % c.numPages) ⟨f.allocated, true, 0⟩
      refs := update (update f.refs r (f.refs r - 1)) f.allocated 1
      allocated := f.allocated + 1
      recycleIdx := f.recycleIdx + 1 } (r + 1) R F := by
  have hrefs := h.refs
  have hfit := h.fit
  have hle := mul_add_le (n := c.numBufsPerPg) hlt
  have hR := (div_bounds hn R).1
  have hP : 0 < c.numPages := by
    by_contra h0
    rw [Nat.eq_zero_of_not_pos h0, Nat.add_zero] at hfit
    have hRF := h.le
    omega
  rw [h.allocated]
  refine .mk (congrArg (· + 1) h.recycleIdx) h.allocIdx (Nat.add_right_comm r c.numPages 1)
    (fun k hk hk' ↦ ?_) h.buf (fun k ↦ ?_) h.le h.size hlt (hfit.trans ?_)
  · dsimp only
    by_cases hnew : k = r + c.numPages
    · rw [hnew, Nat.add_mod_right, update_self, outstanding, Nat.sub_eq_zero_of_le (by omega),
        Nat.zero_mul]
    · rw [update_of_ne, h.page k (by omega) (by omega)]
      intro he
      have hkr := eq_of_mod_eq (r := r) ⟨by omega, by omega⟩ ⟨le_rfl, by omega⟩ he
      omega
  · dsimp only
    by_cases hnew : k = r + c.numPages
    · rw [hnew, update_self, if_pos (by omega), Nat.sub_eq_zero_of_le (by omega)]
    · rw [update_of_ne hnew]
      by_cases hold : k = r
      · rw [hold, update_self, hrefs r, if_pos (by omega), if_neg (by omega)]
        omega
      · rw [update_of_ne hold, hrefs k]
        congr 1
        exact if_congr (by omega) rfl rfl
  · exact Nat.mul_le_mul_right _ (by omega)

/-- The second loop of `flq_refill_pages` replaces all pages without buffers in the ring. -/
theorem recycles (hc : c.Ok) (h : Pages c f r R F) {mem : List Bool} (hm : false ∉ mem) :
    ∃ g, Loop.Ends (recycleBody c) (mem, f) g ∧ Pages c g (R / c.numBufsPerPg) R F ∧
      g.sdesc = f.sdesc := by
  have hn := hc.maxPgOffset.1
  have hb := descBufSize_pos hc
  refine Loop.ends_of_measure (recycleBody c)
    (I := fun s ↦ false ∉ s.1 ∧ (∃ r, Pages c s.2 r R F) ∧ s.2.sdesc = f.sdesc)
    (fun s ↦ R / c.numBufsPerPg - s.2.recycleIdx) ?_ ⟨hm, ⟨r, h⟩, rfl⟩
  rintro ⟨mem, f'⟩ ⟨hm, ⟨r, hp⟩, hs⟩
  dsimp only at hm hp hs
  obtain ⟨hlo, hhi⟩ := div_bounds hn R
  have hRF := hp.le
  have hpage := hp.page r le_rfl (by have := numPages_pos hc; omega)
  rw [recycleBody, hp.recycleIdx, mask hc]
  dsimp only
  rw [hpage, hp.allocIdx]
  dsimp only
  rcases hp.recycled.lt_or_eq with hlt | heq
  · -- all buffers of the page have been given back
    have hle := mul_add_le (n := c.numBufsPerPg) hlt
    have hzero : outstanding c.numBufsPerPg r R F = 0 := by
      rw [outstanding]
      omega
    have hdiv : R / c.numBufsPerPg ≤ F / c.numBufsPerPg := Nat.div_le_div_right hRF
    rw [hzero, Nat.zero_mul, if_neg (by omega)]
    have hok : mem.headD true = true := by
      cases mem with
      | nil => rfl
      | cons ok mem => exact Bool.eq_true_of_not_eq_false fun h ↦ hm (h ▸ List.mem_cons_self)
    rw [if_pos hok]
    refine .inr ⟨_, rfl, ⟨fun hmem ↦ hm (List.mem_of_mem_tail hmem), ⟨r + 1, ?_⟩, hs⟩, ?_⟩
    · have hrep := hp.replace hlt hn
      rw [hp.recycleIdx] at hrep
      simpa only [flqFillPageOne, update_idem, hp.allocIdx] using hrep
    · dsimp only [flqFillPageOne]
      omega
  · refine .inl ⟨f', if_pos ?_, heq ▸ hp, hs⟩
    rcases hRF.lt_or_eq with hlt | hnone
    · refine .inl (Nat.mul_pos ?_ hb).ne'
      rw [outstanding]
      subst heq
      omega
    · exact .inr (by rw [heq, hnone])

theorem mod_ne {j x : ℕ} (hj : R ≤ j ∧ j < R + k) (hx : R ≤ x ∧ x < R + k) (hne : j ≠ x) :
    j % k ≠ x % k := fun he ↦ hne (eq_of_mod_eq hj hx he)

theorem fillOne (hc : c.Ok) (h : Pages c f r R F) (hroom : F < R + c.rngsz)
    (hwin : F < (r + c.numPages) * c.numBufsPerPg)
    (hstart : R ≤ F / c.numBufsPerPg * c.numBufsPerPg) :
    ∃ g, flqFillOne c f (F % c.rngsz) = some g ∧ Pages c g r R (F + 1) ∧
      (g.sdesc (F % c.rngsz)).len = c.c2hBufsz ∧
      ∀ x, x ≠ F % c.rngsz → g.sdesc x = f.sdesc x := by
  have hn := hc.maxPgOffset.1
  obtain ⟨hlo, hhi⟩ := div_bounds hn F
  have hmod := mod_eq_sub F c.numBufsPerPg
  have hRF := h.le
  have hdiv : R / c.numBufsPerPg ≤ F / c.numBufsPerPg := Nat.div_le_div_right hRF
  have hq : r ≤ F / c.numBufsPerPg ∧ F / c.numBufsPerPg < r + c.numPages :=
    ⟨h.recycled.trans hdiv, (Nat.div_lt_iff_lt_mul hn).2 hwin⟩
  have hout : outstanding c.numBufsPerPg (F / c.numBufsPerPg) R F = F % c.numBufsPerPg := by
    rw [outstanding]
    omega
  have hpage := h.page _ hq.1 hq.2
  have hfits := (fits_iff hc).2 (Nat.mod_lt F hn)
  have hrefs := h.refs
  rw [flqFillOne, h.allocIdx, mask hc, hpage, hout]
  dsimp only
  rw [if_neg (not_lt.2 hfits), if_pos rfl]
  refine ⟨_, rfl, .mk h.recycleIdx ?_ h.allocated (h.page_update hq ?_ fun k hk hk' hne ↦ ?_)
    (fun j hj hj' ↦ ?_) (fun k ↦ ?_) (by omega) hroom h.recycled hwin, ?_, fun x hx ↦ ?_⟩
  · dsimp only
    rw [← Nat.succ_mul]
    by_cases hmore : F % c.numBufsPerPg + 1 < c.numBufsPerPg
    · rw [if_neg (not_lt.2 ((fits_iff hc).2 hmore))]
      exact (div_eq (by omega) (by omega)).symm
    · -- the page is used up
      rw [if_pos (not_le.1 (mt (fits_iff hc).1 hmore))]
      exact (div_eq (by rw [Nat.succ_mul]; omega) (by rw [Nat.succ_mul]; omega)).symm
  · rw [← Nat.succ_mul, outstanding]
    congr 2
    omega
  · rw [outstanding, outstanding]
    have hapart := pages_apart (n := c.numBufsPerPg) hne
    omega
  · dsimp only
    by_cases hj'' : j = F
    · rw [hj'', update_self]
      exact ⟨_, rfl⟩
    · rw [update_of_ne (mod_ne (R := R) ⟨hj, by omega⟩ ⟨hRF, hroom⟩ hj'')]
      exact h.buf j hj (by omega)
  · dsimp only
    by_cases hk : k = F / c.numBufsPerPg
    · rw [hk, update_self, hrefs]
      omega
    · rw [update_of_ne hk, hrefs]
      have hapart := pages_apart (n := c.numBufsPerPg) hk
      congr 1
      omega
  · dsimp only
    rw [update_self]
  · exact update_of_ne hx _ _

theorem fillOne_freeOne (c : Conf) (f : Flq) (idx : ℕ) :
    flqFillOne c (flqFreeOne f idx) idx = flqFillOne c f idx := by
  simp only [flqFillOne, flqFreeOne, update_idem]
  rfl

/-- The loop of `qdma_flq_refill` fills all entries that it is to fill. -/
theorem fills (hc : c.Ok) {count idx : ℕ} (h : Pages c f r R F) (hroom : F + count ≤ R + c.rngsz)
    (hwin : F + count ≤ (r + c.numPages) * c.numBufsPerPg)
    (hstart : R ≤ F / c.numBufsPerPg * c.numBufsPerPg)
    (hidx : idx ≤ c.rngsz) (hmod : idx % c.rngsz = F % c.rngsz) :
    ∃ g, flqFill c count idx f = (count, g) ∧ Pages c g r R (F + count) ∧
      (∀ j, F ≤ j → j < F + count → (g.sdesc (j % c.rngsz)).len = c.c2hBufsz) ∧
      ∀ j, R ≤ j → j < F → g.sdesc (j % c.rngsz) = f.sdesc (j % c.rngsz) := by
  have hRF := h.le
  have hz := hc.rngsz
  induction count generalizing f F idx with
  | zero => exact ⟨f, rfl, h, fun j hj hj' ↦ absurd hj' (not_lt.2 hj), fun _ _ _ ↦ rfl⟩
  | succ count ih =>
    obtain ⟨g, hg, hp, hlen, hother⟩ := h.fillOne hc (by omega) (by omega) hstart
    have hlt := Nat.mod_lt F (Nat.zero_lt_of_lt hz)
    have hwrap : (if idx = c.rngsz then 0 else idx) = F % c.rngsz := by
      split
      next heq => rw [← hmod, heq, Nat.mod_self]
      next hne => rw [← hmod, Nat.mod_eq_of_lt (by omega)]
    have hnext : R ≤ (F + 1) / c.numBufsPerPg * c.numBufsPerPg :=
      hstart.trans (Nat.mul_le_mul_right _ (Nat.div_le_div_right (Nat.le_succ F)))
    obtain ⟨g', hfill, hp', hlen', hother'⟩ := ih hp (by omega) (by omega) hnext
      (Nat.succ_le_of_lt hlt) (Nat.mod_add_mod F c.rngsz 1) (by omega)
    refine ⟨g', ?_, by rwa [Nat.add_right_comm] at hp', fun j hj hj' ↦ ?_, fun j hj hj' ↦ ?_⟩
    · rw [flqFill, hwrap, fillOne_freeOne, hg]
      dsimp only
      rw [hfill]
    · rcases hj.eq_or_lt with rfl | hgt
      · rw [hother' F hRF (Nat.lt_succ_self F), hlen]
      · exact hlen' j hgt (by omega)
    · rw [hother' j hj (by omega), hother _ (mod_ne ⟨hj, by omega⟩ ⟨hRF, by omega⟩ hj'.ne)]

end Pages

theorem FlqRefillPages.unique {c : Conf} {count : ℕ} {mem : List Bool} {f g g' : Flq}
    (h : FlqRefillPages c count mem f g) (h' : FlqRefillPages c count mem f g') : g = g' := by
  obtain ⟨u, hu, hg⟩ := h
  obtain ⟨u', hu', hg'⟩ := h'
  obtain rfl := hu.unique hu'
  exact hg.unique hg'

theorem FlqRefill.unique {c : Conf} {idx count : ℕ} {mem : List Bool} {f : Flq} {r r' : ℕ × Flq}
    (h : FlqRefill c idx count mem f r) (h' : FlqRefill c idx count mem f r') : r = r' := by
  obtain ⟨g, hg, hr⟩ := h
  obtain ⟨g', hg', hr'⟩ := h'
  obtain rfl := hg.unique hg'
  exact hr.symm.trans hr'

namespace Pages

variable {c : Conf} {f g : Flq} {R F : ℕ}

theorem refillPages (hc : c.Ok) (h : Pages c f (R / c.numBufsPerPg) R F) {count : ℕ}
    (hcount : R + count ≤ F) {mem : List Bool} (hm : false ∉ mem) :
    ∃ g, FlqRefillPages c count mem f g ∧
      Pages c g ((R + count) / c.numBufsPerPg) (R + count) F ∧ g.sdesc = f.sdesc := by
  obtain ⟨u, hu, hpu, hsu⟩ := h.returns hc rfl hcount
  obtain ⟨g, hg, hpg, hsg⟩ := hpu.recycles hc hm
  exact ⟨g, ⟨u, hu, hg⟩, hpg, hsg.trans hsu⟩

/-- A refill replaces the first `count` buffers of the ring by new ones, if none of them is in the
last page. -/
theorem refill (hc : c.Ok) (h : Pages c f (R / c.numBufsPerPg) R F) {count : ℕ}
    (hcount : R + count ≤ F / c.numBufsPerPg * c.numBufsPerPg) {mem : List Bool} (hm : false ∉ mem)
    {idx : ℕ} (hidx : idx ≤ c.rngsz) (hmod : idx % c.rngsz = F % c.rngsz) :
    ∃ g, FlqRefill c idx count mem f (count, g) ∧
      Pages c g ((R + count) / c.numBufsPerPg) (R + count) (F + count) ∧
      (∀ j, F ≤ j → j < F + count → (g.sdesc (j % c.rngsz)).len = c.c2hBufsz) ∧
      ∀ j, R + count ≤ j → j < F → g.sdesc (j % c.rngsz) = f.sdesc (j % c.rngsz) := by
  have hn := hc.maxPgOffset.1
  have hlo := (div_bounds hn F).1
  have hsize := h.size
  obtain ⟨u, hu, hpu, hsu⟩ := h.refillPages hc (hcount.trans hlo) hm
  have hroom : F + count ≤ R + count + c.rngsz := by omega
  obtain ⟨g, hg, hpg, hlen, hother⟩ := hpu.fills hc hroom (fit_of hc (by omega)) hcount hidx hmod
  exact ⟨g, ⟨u, hu, hg⟩, hpg, hlen, fun j hj hj' ↦ hsu ▸ hother j hj hj'⟩

end Pages

end QdmaTrafficGen.StC2h
