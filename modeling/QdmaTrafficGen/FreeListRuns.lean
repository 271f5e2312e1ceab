import QdmaTrafficGen.C2hFreeList

open Function Sequential

namespace QdmaTrafficGen.StC2h

variable {c : Conf} {f g : Flq} {R F count idx : ℕ} {mem : List Bool}

theorem exists_slot {k i : ℕ} (R : ℕ) (hi : i < k) : ∃ x, R ≤ x ∧ x < R + k ∧ x % k = i := by
  have hk : 0 < k := Nat.zero_lt_of_lt hi
  have hmod := Nat.mod_lt R hk
  have hdiv := Nat.div_add_mod R k
  rcases Nat.lt_or_ge i (R % k) with hlt | hge
  · refine ⟨k * (R / k) + k + i, by omega, by omega, ?_⟩
    rw [← Nat.mul_succ, Nat.mul_add_mod, Nat.mod_eq_of_lt hi]
  · refine ⟨k * (R / k) + i, by omega, by omega, ?_⟩
    rw [Nat.mul_add_mod, Nat.mod_eq_of_lt hi]

def Distinct (c : Conf) (f : Flq) : Prop :=
  ∀ i < c.rngsz, ∀ j < c.rngsz, i ≠ j → (f.sdesc i).dmaAddr ≠ (f.sdesc j).dmaAddr

theorem buf_inj (hc : c.Ok) {x y : ℕ} (h : (x / c.numBufsPerPg, x % c.numBufsPerPg * c.descBufSize) =
    (y / c.numBufsPerPg, y % c.numBufsPerPg * c.descBufSize)) : x = y := by
  obtain ⟨hdiv, hmod⟩ := Prod.mk.inj h
  have hx := Nat.div_add_mod x c.numBufsPerPg
  rw [hdiv, Nat.eq_of_mul_eq_mul_right (Pages.descBufSize_pos hc) hmod, Nat.div_add_mod] at hx
  exact hx.symm

theorem Pages.distinct {r : ℕ} (hc : c.Ok) (h : Pages c f r R (R + c.rngsz)) : Distinct c f := by
  intro i hi j hj hne he
  obtain ⟨x, hx, hx', rfl⟩ := exists_slot R hi
  obtain ⟨y, hy, hy', rfl⟩ := exists_slot R hj
  obtain ⟨_, hbx⟩ := h.buf x hx hx'
  obtain ⟨_, hby⟩ := h.buf y hy hy'
  rw [hbx, hby] at he
  exact hne (congrArg (· % c.rngsz) (buf_inj hc (Option.some.inj he)))

theorem pages_init (c : Conf) : Pages c ((List.range c.numPages).foldl flqFillPageOne
    ⟨0, 0, fun _ ↦ ⟨0, false, 0⟩, fun _ ↦ ⟨none, 0, none, 0⟩, 0, fun _ ↦ 0⟩) 0 0 0 := by
  have hpages (k : ℕ) : ∃ g, (List.range k).foldl flqFillPageOne
      ⟨0, 0, fun _ ↦ ⟨0, false, 0⟩, fun _ ↦ ⟨none, 0, none, 0⟩, 0, fun _ ↦ 0⟩ = g ∧
      g.allocIdx = 0 ∧ g.recycleIdx = 0 ∧ g.allocated = k ∧ (∀ i < k, g.pgSdesc i = ⟨i, true, 0⟩) ∧
      ∀ i, g.refs i = if i < k then 1 else 0 := by
    induction k with
    | zero => exact ⟨_, rfl, rfl, rfl, rfl, fun i hi ↦ absurd hi (Nat.not_lt_zero i), fun _ ↦ rfl⟩
    | succ k ih =>
      obtain ⟨g, hg, halloc, hrecycle, hall, hpg, hrefs⟩ := ih
      rw [List.range_succ, List.foldl_concat, hg]
      refine ⟨_, rfl, halloc, hrecycle, congrArg (· + 1) hall, fun i hi ↦ ?_, fun i ↦ ?_⟩
      · rw [flqFillPageOne, hall]
        dsimp only
        rcases Nat.lt_succ_iff_lt_or_eq.1 hi with hlt | rfl
        · rw [update_of_ne hlt.ne, hpg i hlt]
        · rw [update_self]
      · rw [flqFillPageOne, hall]
        dsimp only
        by_cases hik : i = k
        · rw [hik, update_self, if_pos (Nat.lt_succ_self k)]
        · rw [update_of_ne hik, hrefs]
          exact if_congr (by omega) rfl rfl
  obtain ⟨g, hg, halloc, hrecycle, hall, hpg, hrefs⟩ := hpages c.numPages
  rw [hg]
  refine .mk hrecycle (by rw [halloc, Nat.zero_div]) (by rw [hall, Nat.zero_add])
    (fun k _ hk ↦ ?_) (fun j _ hj ↦ absurd hj (Nat.not_lt_zero j)) (fun k ↦ ?_) le_rfl
    (Nat.zero_le _) (Nat.zero_le _) (Nat.zero_le _)
  · rw [Nat.zero_add] at hk
    rw [Nat.mod_eq_of_lt hk, hpg k hk, outstanding, Nat.zero_min, Nat.zero_sub, Nat.zero_mul]
  · rw [hrefs, Nat.zero_min, Nat.zero_sub, Nat.add_zero]
    exact if_congr (by omega) rfl rfl

theorem allocResource (hc : c.Ok) : ∃ f, descqFlqAllocResource c = some f ∧
    Pages c f 0 0 c.rngsz ∧ ∀ j < c.rngsz, (f.sdesc j).len = c.c2hBufsz := by
  have hfit := Pages.fit_of (R := 0) hc (Nat.le_of_eq (Nat.zero_add c.rngsz).symm)
  rw [Nat.zero_div] at hfit
  have hfill (k : ℕ) (hk : k ≤ c.rngsz) : ∃ g, (List.range k).foldlM (flqFillOne c)
      ((List.range c.numPages).foldl flqFillPageOne
        ⟨0, 0, fun _ ↦ ⟨0, false, 0⟩, fun _ ↦ ⟨none, 0, none, 0⟩, 0, fun _ ↦ 0⟩) = some g ∧
      Pages c g 0 0 k ∧ ∀ j < k, (g.sdesc j).len = c.c2hBufsz := by
    induction k with
    | zero => exact ⟨_, rfl, pages_init c, fun j hj ↦ absurd hj (Nat.not_lt_zero j)⟩
    | succ k ih =>
      obtain ⟨g, hg, hp, hlen⟩ := ih (by omega)
      obtain ⟨g', hg', hp', hlen', hother⟩ := hp.fillOne hc (by omega) (by omega) (Nat.zero_le _)
      rw [Nat.mod_eq_of_lt (by omega)] at hg' hlen' hother
      refine ⟨g', ?_, hp', fun j hj ↦ ?_⟩
      · rw [List.range_succ, List.foldlM_append, hg]
        simpa using hg'
      · rcases Nat.lt_succ_iff_lt_or_eq.1 hj with hlt | rfl
        · rw [hother j hlt.ne, hlen j hlt]
        · exact hlen'
  exact hfill c.rngsz le_rfl

theorem wrap_eq {c : Conf} (hidx : idx ≤ c.rngsz) :
    (if idx = c.rngsz then 0 else idx) = idx % c.rngsz := by
  split
  next heq => rw [heq, Nat.mod_self]
  next hne => rw [Nat.mod_eq_of_lt (by omega)]

theorem flqFillOne_sdesc {x : ℕ} (h : flqFillOne c f idx = some g) (hx : x ≠ idx) :
    g.sdesc x = f.sdesc x := by
  rw [flqFillOne] at h
  dsimp only at h
  split at h
  next => cases h
  next =>
    obtain rfl := Option.some.inj h
    exact update_of_ne hx _ _

theorem flqFill_sdesc (hz : 0 < c.rngsz) {x : ℕ} (hidx : idx ≤ c.rngsz)
    (hx : ∀ i < count, x ≠ (idx + i) % c.rngsz) : (flqFill c count idx f).2.sdesc x = f.sdesc x := by
  induction count generalizing idx f with
  | zero => rfl
  | succ count ih =>
    have hx₀ := hx 0 (Nat.succ_pos count)
    have hfree : (flqFreeOne f (idx % c.rngsz)).sdesc x = f.sdesc x := update_of_ne hx₀ _ _
    rw [flqFill, wrap_eq hidx]
    dsimp only
    rcases hg : flqFillOne c (flqFreeOne f (idx % c.rngsz)) (idx % c.rngsz) with _ | g
    · exact hfree
    · have hlt := Nat.mod_lt idx hz
      refine (ih (show idx % c.rngsz + 1 ≤ c.rngsz from hlt) fun i hi ↦ ?_).trans
        ((flqFillOne_sdesc hg hx₀).trans hfree)
      rw [Nat.add_right_comm, Nat.add_assoc, Nat.mod_add_mod]
      exact hx (i + 1) (by omega)

theorem flqFill_within (hc : c.Ok) {p o t : ℕ} (hidx : idx ≤ c.rngsz) (hcount : count ≤ c.rngsz)
    (hpage : f.pgSdesc (f.allocIdx % c.numPages) = ⟨p, true, o * c.descBufSize⟩)
    (ht : t < count) (ho : o + t < c.numBufsPerPg) :
    ((flqFill c count idx f).2.sdesc ((idx + t) % c.rngsz)).dmaAddr =
      some (p, (o + t) * c.descBufSize) := by
  have hz := Nat.zero_lt_of_lt hc.rngsz
  induction t generalizing count idx f o with
  | zero =>
    obtain ⟨count, rfl⟩ := Nat.exists_eq_succ_of_ne_zero ht.ne'
    have hlt := Nat.mod_lt idx hz
    have hfits := (Pages.fits_iff hc).2 (show o < c.numBufsPerPg from ho)
    rw [flqFill, wrap_eq hidx]
    simp only [Pages.fillOne_freeOne]
    rw [flqFillOne, Pages.mask hc, hpage]
    dsimp only
    rw [if_neg (not_lt.2 hfits), flqFill_sdesc hz (by omega) fun i hi he ↦ ?_]
    · dsimp only
      rw [Nat.add_zero, update_self, if_pos rfl, Nat.add_zero]
    · rw [Nat.add_zero, Nat.add_right_comm, Nat.add_assoc, Nat.mod_add_mod] at he
      have hne := eq_of_mod_eq (r := idx) ⟨le_rfl, by omega⟩ ⟨by omega, by omega⟩ he
      omega
  | succ t ih =>
    obtain ⟨count, rfl⟩ := Nat.exists_eq_succ_of_ne_zero (Nat.ne_zero_of_lt ht)
    have hlt := Nat.mod_lt idx hz
    have hfits := (Pages.fits_iff hc).2 (show o < c.numBufsPerPg by omega)
    have hmore := (Pages.fits_iff hc).2 (show o + 1 < c.numBufsPerPg by omega)
    rw [Nat.succ_mul] at hmore
    rw [flqFill, wrap_eq hidx]
    simp only [Pages.fillOne_freeOne]
    rw [flqFillOne, Pages.mask hc, hpage]
    dsimp only
    rw [if_neg (not_lt.2 hfits), if_neg (not_lt.2 hmore), if_pos rfl]
    have hnext := @ih
      { f with
        sdesc := update f.sdesc (idx % c.rngsz)
          ⟨some p, o * c.descBufSize, some (p, o * c.descBufSize), c.c2hBufsz⟩
        refs := update f.refs p (f.refs p + 1)
        pgSdesc := update f.pgSdesc (f.allocIdx % c.numPages)
          ⟨p, true, o * c.descBufSize + c.descBufSize⟩ }
      count (idx % c.rngsz + 1) (o + 1) (by omega) (by omega)
      (by dsimp only; rw [update_self, Nat.succ_mul]) (by omega) (by omega)
    rw [Nat.add_right_comm, Nat.add_assoc, Nat.mod_add_mod, Nat.add_right_comm o 1 t] at hnext
    exact hnext

/-- If buffers of the last page are given back while others of it are in the ring, one of these is
put into the ring once more. -/
theorem Pages.aliased (hc : c.Ok) (h : Pages c f (R / c.numBufsPerPg) R (R + c.rngsz))
    (hstart : R ≤ (R + c.rngsz) / c.numBufsPerPg * c.numBufsPerPg) (hcount : count < c.rngsz)
    (hm : false ∉ mem)
    (hlast : (R + c.rngsz) / c.numBufsPerPg * c.numBufsPerPg < R + count) :
    ∃ g, FlqRefill c (R % c.rngsz) count mem f (flqFill c count (R % c.rngsz) g) ∧
      ¬Distinct c (flqFill c count (R % c.rngsz) g).2 := by
  have hz := Nat.zero_lt_of_lt hc.rngsz
  have hn := hc.maxPgOffset.1
  obtain ⟨hlo, hhi⟩ := div_bounds hn (R + c.rngsz)
  set a := (R + c.rngsz) / c.numBufsPerPg
  obtain ⟨g, hg, hp, hs⟩ := h.refillPages hc (show R + count ≤ R + c.rngsz by omega) hm
  have hdiv : (R + count) / c.numBufsPerPg = a := div_eq (by omega) (by omega)
  have hpage := hp.page a (Nat.le_of_eq hdiv) (by have := Pages.numPages_pos hc; omega)
  have hout : outstanding c.numBufsPerPg a (R + count) (R + c.rngsz) = c.rngsz - count := by
    rw [outstanding]
    omega
  have halloc : g.allocIdx = a := hp.allocIdx
  rw [hout, ← halloc] at hpage
  refine ⟨g, ⟨g, hg, rfl⟩, fun hd ↦ ?_⟩
  -- the buffers of the last page in the ring, by their place in it, and the first one given again
  obtain ⟨e, t, he, het, helo, hehi, ht⟩ : ∃ e t, c.rngsz - count + t = e ∧ t < count ∧
      R + count ≤ a * c.numBufsPerPg + e ∧ a * c.numBufsPerPg + e < R + c.rngsz ∧
      e < c.numBufsPerPg := by
    rcases Nat.le_total (R + count - a * c.numBufsPerPg) (c.rngsz - count) with hle | hle
    · exact ⟨c.rngsz - count, 0, by omega, by omega, by omega, by omega, by omega⟩
    · exact ⟨R + count - a * c.numBufsPerPg,
        R + count - a * c.numBufsPerPg - (c.rngsz - count), by omega, by omega, by omega, by omega,
        by omega⟩
  have hnew := flqFill_within hc (Nat.mod_lt R hz).le hcount.le hpage het (he ▸ ht)
  rw [halloc, he, Nat.mod_add_mod] at hnew
  obtain ⟨_, hbuf⟩ := hp.buf (a * c.numBufsPerPg + e) helo hehi
  have hj : (a * c.numBufsPerPg + e) / c.numBufsPerPg = a := div_eq (by omega) (by omega)
  rw [hj, Nat.mul_comm a, Nat.mul_add_mod, Nat.mod_eq_of_lt ht, Nat.mul_comm _ a] at hbuf
  have hslot : ∀ i < count, (a * c.numBufsPerPg + e) % c.rngsz ≠ (R % c.rngsz + i) % c.rngsz := by
    intro i hi
    rw [Nat.mod_add_mod]
    exact Pages.mod_ne (R := R) ⟨by omega, hehi⟩ ⟨by omega, by omega⟩ (by omega)
  have hold := congrArg SwSg.dmaAddr (flqFill_sdesc (f := g) hz (Nat.mod_lt R hz).le hslot)
  rw [hbuf] at hold
  refine hd _ (Nat.mod_lt _ hz) _ (Nat.mod_lt _ hz) ?_ (hold.trans hnew.symm)
  have hne := hslot t het
  rwa [Nat.mod_add_mod] at hne

/-- The free list of a queue after refills with `R` buffers in all, none of which put a buffer into
the ring that was there already. -/
inductive Refilled (c : Conf) : ℕ → Flq → Prop
  | init {f : Flq} (h : descqFlqAllocResource c = some f) : Refilled c 0 f
  | refill {R count : ℕ} {f : Flq} {mem : List Bool} {r : ℕ × Flq} (h : Refilled c R f)
      (hcount : count < c.rngsz) (hm : false ∉ mem)
      (hr : FlqRefill c (R % c.rngsz) count mem f r) (hd : Distinct c r.2) :
      Refilled c (R + count) r.2

/-- A refill goes well exactly if the buffers that it takes out of the ring are not in the last page. -/
theorem Pages.refill_iff (hc : c.Ok) (h : Pages c f (R / c.numBufsPerPg) R (R + c.rngsz))
    (hstart : R ≤ (R + c.rngsz) / c.numBufsPerPg * c.numBufsPerPg) (hcount : count < c.rngsz)
    (hm : false ∉ mem) : ∃ r, FlqRefill c (R % c.rngsz) count mem f r ∧
      (R + count ≤ (R + c.rngsz) / c.numBufsPerPg * c.numBufsPerPg ∧ Distinct c r.2 ∧
          r.1 = count ∧
          Pages c r.2 ((R + count) / c.numBufsPerPg) (R + count) (R + count + c.rngsz) ∨
        ¬R + count ≤ (R + c.rngsz) / c.numBufsPerPg * c.numBufsPerPg ∧ ¬Distinct c r.2) := by
  by_cases hle : R + count ≤ (R + c.rngsz) / c.numBufsPerPg * c.numBufsPerPg
  · obtain ⟨g, hg, hp, -⟩ := h.refill hc hle hm (Nat.mod_lt R (Nat.zero_lt_of_lt hc.rngsz)).le
      (by rw [Nat.mod_mod, Nat.add_mod_right])
    rw [Nat.add_right_comm] at hp
    exact ⟨_, hg, .inl ⟨hle, hp.distinct hc, rfl, hp⟩⟩
  · obtain ⟨g, hg, hd⟩ := h.aliased hc hstart hcount hm (not_le.1 hle)
    exact ⟨_, hg, .inr ⟨hle, hd⟩⟩

theorem Refilled.pages (hc : c.Ok) (h : Refilled c R f) :
    Pages c f (R / c.numBufsPerPg) R (R + c.rngsz) ∧
      R ≤ (R + c.rngsz) / c.numBufsPerPg * c.numBufsPerPg := by
  induction h with
  | init h =>
    obtain ⟨g, hg, hp, -⟩ := allocResource hc
    obtain rfl := Option.some.inj (h.symm.trans hg)
    rw [Nat.zero_div, Nat.zero_add]
    exact ⟨hp, Nat.zero_le _⟩
  | @refill R count f mem r _ hcount hm hr hd ih =>
    obtain ⟨hp, hstart⟩ := ih
    obtain ⟨r', hr', ⟨hle, -, -, hp'⟩ | ⟨-, hd'⟩⟩ := hp.refill_iff hc hstart hcount hm
    · obtain rfl := hr.unique hr'
      exact ⟨hp', hle.trans (Nat.mul_le_mul_right _ (Nat.div_le_div_right (by omega)))⟩
    · obtain rfl := hr.unique hr'
      exact absurd hd hd'

/-- While pages can be had, every refill ends, and after it the buffers in the ring are distinct
exactly if those that it leaves there are at least as many as the last page has. -/
theorem Refilled.distinct_iff (hc : c.Ok) (h : Refilled c R f) (hcount : count < c.rngsz)
    (hm : false ∉ mem) : ∃ r, FlqRefill c (R % c.rngsz) count mem f r ∧
      (Distinct c r.2 ↔ count + (R + c.rngsz) % c.numBufsPerPg ≤ c.rngsz) := by
  obtain ⟨hp, hstart⟩ := h.pages hc
  have hmod := mod_eq_sub (R + c.rngsz) c.numBufsPerPg
  have hlo := (div_bounds hc.maxPgOffset.1 (R + c.rngsz)).1
  obtain ⟨r, hr, ⟨hle, hd, -⟩ | ⟨hle, hd⟩⟩ := hp.refill_iff hc hstart hcount hm
  · exact ⟨r, hr, fun _ ↦ by omega, fun _ ↦ hd⟩
  · exact ⟨r, hr, fun h ↦ absurd h hd, fun h ↦ absurd (by omega) hle⟩

/-- Sixteen buffers in a page, four of which are the last page's: giving back 17 of 20 puts one of
those that stay into the ring again. -/
theorem Refilled.distinct_iff_aliased : ∃ f r, FlqRefill ⟨20, 20, 256, false⟩ 0 17 [] f r ∧
    ¬Distinct ⟨20, 20, 256, false⟩ r.2 := by
  have hok : (⟨20, 20, 256, false⟩ : Conf).Ok := ⟨by decide, by decide, by decide⟩
  obtain ⟨f, hf, -⟩ := allocResource hok
  obtain ⟨r, hr, hiff⟩ := Refilled.distinct_iff hok (.init hf) (show 17 < 20 by decide)
    (show false ∉ [] by decide)
  exact ⟨f, r, hr, fun hd ↦ absurd (hiff.1 hd) (by decide)⟩

end QdmaTrafficGen.StC2h
