import Mathlib.Data.List.Forall2
import QdmaTrafficGen.H2cFill

open Clocked Sequential

namespace QdmaTrafficGen.StH2c

/-- A request as it was when it was submitted. -/
def SgtReqCb.submitted (cb : SgtReqCb) : SgtReqCb := { cb with offset := 0, descNr := 0 }

/-- The descriptors `ds` carry all bytes of a request. -/
def Covers (cb : SgtReqCb) (ds : List H2cDesc) : Prop := bytes ds = reqBytes cb.req

/-- A request that waits for the device to complete `descNr` of its descriptors `ds`. -/
def Pending (cb : SgtReqCb) (ds : List H2cDesc) : Prop :=
  Covers cb ds ∧ cb.offset = cb.req.count ∧ 0 < cb.descNr ∧ cb.descNr ≤ ds.length

/-- The requests that are not yet set up, the first one as far as the descriptors `cur` go. -/
def Working : List SgtReqCb → List H2cDesc → Prop
  | [], cur => cur = []
  | cb :: work, cur => bytes cur = (reqBytes cb.req).take cb.offset ∧
      (cb.offset < cb.req.count ∨ cb.offset = 0) ∧ cb.descNr = cur.length ∧
      ∀ x ∈ work, x.offset = 0 ∧ x.descNr = 0

/-- All descriptors that have been set up, request by request, and how many of them the driver has
seen completed, the device has reported, has fetched and may fetch. -/
structure History where
  done : List (List H2cDesc)
  pend : List (List H2cDesc)
  cur : List H2cDesc
  acked : ℕ
  reported : ℕ
  fetched : ℕ
  told : ℕ

def History.all (w : History) : List H2cDesc := w.done.flatten ++ w.pend.flatten ++ w.cur

structure Inv (c : Conf) (subs : List SgtReqCb) (s : Sys) (w : History) : Prop where
  reqs : subs = (s.done.map Prod.fst ++ s.q.pendList ++ s.q.workList).map SgtReqCb.submitted
  wellFormed : ∀ cb ∈ subs, cb.WellFormed
  done : List.Forall₂ (fun r g ↦ Covers r.1 g ∧ r.2 = 0) s.done w.done
  pend : List.Forall₂ Pending s.q.pendList w.pend
  work : Working s.q.workList w.cur
  credit : w.acked + (s.q.pendList.map SgtReqCb.descNr).sum + w.cur.length =
    w.all.length + s.q.credit
  credit_lt : s.q.pendList ≠ [] → s.q.credit < (s.q.pendList.map SgtReqCb.descNr).sum
  ring : Ring.Holds c.rngsz s.q.desc s.q.cidx s.q.pidx (w.all.drop w.acked)
  avail : w.all.length - w.acked + s.q.avail + 1 = c.rngsz
  cidx : s.q.cidx = w.acked % c.rngsz
  order : w.acked ≤ w.reported ∧ w.reported ≤ w.fetched ∧ w.fetched ≤ w.told ∧
    w.told ≤ w.all.length
  device : s.dev.status = w.reported % c.rngsz ∧ s.dev.cidx = w.fetched % c.rngsz ∧
    s.dev.pidx = w.told % c.rngsz
  pidxInfo : s.q.pidxInfo = s.dev.pidx
  wire : s.dev.wire = w.all.take w.fetched

variable {c : Conf} {subs : List SgtReqCb} {s t : Sys} {w : History}

namespace Inv

theorem rngsz_pos (h : Inv c subs s w) : 0 < c.rngsz := by
  have hr := h.avail
  omega

theorem slot_cidx (h : Inv c subs s w) {k : ℕ} (hk : w.acked ≤ k) :
    Ring.slot c.rngsz s.q.cidx (k - w.acked) = k % c.rngsz := by
  rw [h.cidx, Ring.slot, Nat.mod_add_mod, Nat.add_sub_cancel' hk]

theorem lt_rngsz (h : Inv c subs s w) {k : ℕ} (hk : k ≤ w.all.length) :
    k - w.acked < c.rngsz := by
  have hr := h.avail
  omega

theorem fetch (h : Inv c subs s w) :
    Inv c subs (s.move c .fetch) { w with fetched := min (w.fetched + 1) w.told } := by
  obtain ⟨hab, hbh, hht, htl⟩ := h.order
  obtain ⟨hstatus, hcidx, hpidx⟩ := h.device
  have hz := h.rngsz_pos
  rw [Sys.move]
  by_cases he : s.dev.cidx = s.dev.pidx
  · have heq : w.fetched = w.told := by
      have hslot := (h.slot_cidx (k := w.fetched) (by omega)).trans
        (((hcidx.symm.trans he).trans hpidx).trans (h.slot_cidx (k := w.told) (by omega)).symm)
      have hinj := (Ring.slot_inj (h.lt_rngsz (by omega)) (h.lt_rngsz htl)).1 hslot
      omega
    rw [if_pos he, show min (w.fetched + 1) w.told = w.fetched by omega]
    exact h
  · rw [if_neg he]
    have hlt : w.fetched < w.told := by
      refine lt_of_le_of_ne hht fun hft ↦ he ?_
      rw [hcidx, hpidx, hft]
    have hget := h.ring.get (w.fetched - w.acked) (by rw [List.length_drop]; omega)
    rw [h.slot_cidx (by omega), ← hcidx, List.getElem?_drop, Nat.add_sub_cancel' (by omega)] at hget
    rw [Nat.min_eq_left (by omega)]
    refine { h with
      order := ⟨hab, by dsimp only; omega, hlt, htl⟩
      device := ⟨hstatus, ?_, hpidx⟩
      wire := ?_ }
    · have hs := Ring.succ_mod (n := w.fetched) hz
      dsimp only
      rw [← hs, ← hcidx, Ring.succ]
      split <;> split <;> omega
    · change s.dev.wire ++ [s.q.desc s.dev.cidx] = w.all.take (w.fetched + 1)
      rw [h.wire, List.take_add_one, hget]
      rfl

theorem writeBack (h : Inv c subs s w) :
    Inv c subs (s.move c .writeBack) { w with reported := w.fetched } := by
  obtain ⟨hab, hbh, hht, htl⟩ := h.order
  exact { h with
    order := ⟨by dsimp only; omega, le_rfl, hht, htl⟩
    device := ⟨h.device.2.1, h.device.2.1, h.device.2.2⟩ }

theorem moves (h : Inv c subs s w) (ms : List Move) :
    ∃ w', Inv c subs (s.moves c ms) w' ∧ w'.all = w.all ∧ w'.told = w.told ∧
      w'.acked = w.acked := by
  induction ms generalizing s w with
  | nil => exact ⟨w, h, rfl, rfl, rfl⟩
  | cons m ms ih =>
    cases m with
    | fetch =>
      obtain ⟨w', h', hall, htold, hacked⟩ := ih h.fetch
      exact ⟨w', h', hall, htold, hacked⟩
    | writeBack =>
      obtain ⟨w', h', hall, htold, hacked⟩ := ih h.writeBack
      exact ⟨w', h', hall, htold, hacked⟩

theorem fetches (h : Inv c subs s w) (k : ℕ) : Inv c subs (s.moves c (List.replicate k .fetch))
    { w with fetched := min (w.fetched + k) w.told } := by
  induction k generalizing s w with
  | zero =>
    rw [Nat.add_zero, Nat.min_eq_left h.order.2.2.1]
    exact h
  | succ k ih =>
    have hk := ih h.fetch
    have heq : min (min (w.fetched + 1) w.told + k) w.told = min (w.fetched + (k + 1)) w.told := by
      omega
    dsimp only at hk
    rw [heq] at hk
    exact hk

theorem submit (h : Inv c subs s w) {cb : SgtReqCb} (hcb : cb.WellFormed) :
    Inv c (subs ++ [cb]) { s with q := { s.q with workList := s.q.workList ++ [cb] } } w := by
  have hsub : cb.submitted = cb := by
    obtain ⟨ho, hn⟩ := hcb.fresh
    cases cb
    exact (congrArg₂ (SgtReqCb.mk _ _ _) ho hn).symm
  refine { h with reqs := ?_, wellFormed := fun x hx ↦ ?_, work := ?_ }
  · rw [← List.append_assoc, List.map_append, ← h.reqs, List.map_singleton, hsub]
  · rcases List.mem_append.1 hx with hx | hx
    · exact h.wellFormed x hx
    · exact List.mem_singleton.1 hx ▸ hcb
  · have hwork := h.work
    rcases hw : s.q.workList with _ | ⟨x, work⟩
    · rw [hw] at hwork
      refine ⟨?_, .inr hcb.fresh.1, ?_, fun x hx ↦ by cases hx⟩
      · rw [hwork, hcb.fresh.1]
        rfl
      · rw [hwork, hcb.fresh.2]
        rfl
    · rw [hw] at hwork
      obtain ⟨hb, hlt, hnr, hrest⟩ := hwork
      refine ⟨hb, hlt, hnr, fun y hy ↦ ?_⟩
      rcases List.mem_append.1 hy with hy | hy
      · exact hrest y hy
      · exact List.mem_singleton.1 hy ▸ hcb.fresh

end Inv

theorem sum_descNr_pos {pend : List SgtReqCb} {gs : List (List H2cDesc)}
    (h : List.Forall₂ Pending pend gs) (hne : pend ≠ []) : 0 < (pend.map SgtReqCb.descNr).sum := by
  cases h with
  | nil => exact absurd rfl hne
  | cons hcb _ =>
    rw [List.map_cons, List.sum_cons]
    exact Nat.add_pos_left hcb.2.2.1 _

theorem completeRequests_spec {cr : ℕ} {pend : List SgtReqCb} {gs : List (List H2cDesc)}
    (h : List.Forall₂ Pending pend gs) {done : List (SgtReqCb × ℤ)} {pend' : List SgtReqCb} {cr' : ℕ}
    (hr : completeRequests cr pend = (done, pend', cr')) :
    ∃ gs₁ gs₂, gs = gs₁ ++ gs₂ ∧ List.Forall₂ (fun r g ↦ Covers r.1 g ∧ r.2 = 0) done gs₁ ∧
      List.Forall₂ Pending pend' gs₂ ∧
      (done.map Prod.fst ++ pend').map SgtReqCb.submitted = pend.map SgtReqCb.submitted ∧
      (pend.map SgtReqCb.descNr).sum + cr' = (pend'.map SgtReqCb.descNr).sum + cr ∧
      (pend' ≠ [] → cr' = 0) := by
  induction h generalizing cr done pend' cr' with
  | nil =>
    obtain ⟨rfl, rfl, rfl⟩ : [] = done ∧ [] = pend' ∧ cr = cr' := by
      simpa [completeRequests, Prod.ext_iff] using hr
    exact ⟨[], [], rfl, .nil, .nil, rfl, rfl, fun h ↦ absurd rfl h⟩
  | @cons cb g pend gs hcb hrest ih =>
    have hdone : Covers (reqDone cb).1 g ∧ (reqDone cb).2 = 0 :=
      ⟨hcb.1, if_neg (not_not.2 hcb.2.1)⟩
    rw [completeRequests] at hr
    by_cases hge : cr ≥ cb.descNr
    · rw [if_pos hge] at hr
      by_cases h0 : cr - cb.descNr = 0
      · rw [if_pos h0] at hr
        obtain ⟨rfl, rfl, rfl⟩ : [reqDone cb] = done ∧ pend = pend' ∧ 0 = cr' := by
          simpa [Prod.ext_iff] using hr
        refine ⟨[g], gs, rfl, .cons hdone .nil, hrest, rfl, ?_, fun _ ↦ rfl⟩
        rw [List.map_cons, List.sum_cons]
        omega
      · rw [if_neg h0] at hr
        rcases hr' : completeRequests (cr - cb.descNr) pend with ⟨done₁, pend₁, cr₁⟩
        rw [hr'] at hr
        obtain ⟨rfl, rfl, rfl⟩ : reqDone cb :: done₁ = done ∧ pend₁ = pend' ∧ cr₁ = cr' := by
          simpa [Prod.ext_iff] using hr
        obtain ⟨gs₁, gs₂, rfl, hd, hp, hsub, hsum, hzero⟩ := ih hr'
        refine ⟨g :: gs₁, gs₂, rfl, .cons hdone hd, hp, ?_, ?_, hzero⟩
        · exact congrArg (cb.submitted :: ·) hsub
        · rw [List.map_cons, List.sum_cons]
          omega
    · rw [if_neg hge] at hr
      obtain ⟨rfl, rfl, rfl⟩ :
          [] = done ∧ { cb with descNr := cb.descNr - cr } :: pend = pend' ∧ 0 = cr' := by
        simpa [Prod.ext_iff] using hr
      refine ⟨[], g :: gs, rfl, .nil, .cons ⟨hcb.1, hcb.2.1, ?_, ?_⟩ hrest, rfl, ?_, fun _ ↦ rfl⟩
      · exact Nat.sub_pos_of_lt (not_le.1 hge)
      · exact (Nat.sub_le _ _).trans hcb.2.2.2
      · simp only [List.map_cons, List.sum_cons]
        omega

theorem Inv.cmplStatus (h : Inv c subs s w) :
    ∃ w', Inv c subs (s.cmplStatus c) w' ∧ w'.all = w.all ∧ w'.told = w.told ∧
      w'.acked = w.reported := by
  obtain ⟨hab, hbh, hht, htl⟩ := h.order
  obtain ⟨hstatus, hcidx, hpidx⟩ := h.device
  have hz := h.rngsz_pos
  have hkeep (hk : w.reported - w.acked = 0) :
      ∃ w', Inv c subs s w' ∧ w'.all = w.all ∧ w'.told = w.told ∧ w'.acked = w.reported :=
    ⟨w, h, rfl, rfl, by omega⟩
  have hreported : Ring.slot c.rngsz s.q.cidx (w.reported - w.acked) = s.dev.status := by
    rw [h.slot_cidx hab, hstatus]
  have hinj {k : ℕ} (hk : k < c.rngsz) (he : Ring.slot c.rngsz s.q.cidx k = s.q.cidx) : k = 0 :=
    (Ring.slot_inj hk hz).1 (he.trans (Ring.slot_zero h.ring.rd_lt).symm)
  rw [Sys.cmplStatus]
  by_cases h₁ : s.q.pidx = s.q.cidx
  · rw [if_pos h₁]
    have hwr := h.ring.wr_eq
    rw [List.length_drop] at hwr
    have hnone := hinj (h.lt_rngsz le_rfl) (hwr.symm.trans h₁)
    exact hkeep (by omega)
  rw [if_neg h₁]
  by_cases h₂ : s.dev.status = s.q.cidx
  · rw [if_pos h₂]
    exact hkeep (hinj (h.lt_rngsz (by omega)) (hreported.trans h₂))
  rw [if_neg h₂]
  have hcr := Ring.distance h.ring.rd_lt (h.lt_rngsz (k := w.reported) (by omega))
  rw [hreported] at hcr
  dsimp only
  rw [hcr]
  rcases hdone : completeRequests (s.q.credit + (w.reported - w.acked)) s.q.pendList with
    ⟨done, pend, credit⟩
  obtain ⟨gs₁, gs₂, hgs, hd, hp, hsub, hsum, hzero⟩ := completeRequests_spec h.pend hdone
  have hall : (w.done ++ gs₁).flatten ++ gs₂.flatten ++ w.cur = w.all := by
    rw [History.all, hgs]
    simp only [List.flatten_append, List.append_assoc]
  have hcredit := h.credit
  have havail := h.avail
  refine ⟨{ w with done := w.done ++ gs₁, pend := gs₂, acked := w.reported }, ?_, hall, rfl, rfl⟩
  refine .mk ?_ h.wellFormed (List.rel_append h.done hd) hp h.work ?_ ?_ ?_ ?_ ?_ ?_ ?_ ?_ ?_
  · rw [h.reqs]
    simp only [List.map_append, List.append_assoc] at hsub ⊢
    rw [← hsub]
    simp only [List.append_assoc]
  · dsimp only [History.all] at hall ⊢
    rw [hall]
    change w.reported + (pend.map SgtReqCb.descNr).sum + w.cur.length = w.all.length + credit
    omega
  · intro hne
    exact (hzero hne).trans_lt (sum_descNr_pos hp hne)
  · change Ring.Holds c.rngsz s.q.desc s.dev.status s.q.pidx (_ : List H2cDesc)
    rw [History.all, hall, ← hreported]
    have hdrop := h.ring.drop (k := w.reported - w.acked) (by rw [List.length_drop]; omega)
    rwa [List.drop_drop, Nat.add_sub_cancel' hab] at hdrop
  · rw [History.all, hall]
    dsimp only
    omega
  · exact hstatus
  · rw [History.all, hall]
    exact ⟨le_rfl, hbh, hht, htl⟩
  · exact ⟨hstatus, hcidx, h.pidxInfo.trans hpidx⟩
  · rfl
  · rw [History.all, hall]
    exact h.wire

theorem SgtReqCb.WellFormed.length_reqBytes {cb : SgtReqCb} (h : cb.WellFormed) :
    (reqBytes cb.req).length = cb.req.count := by
  rw [reqBytes, length_sgBytes, h.count_eq]
  simp only [Nat.zero_add]

theorem pktsz_pos (cb : SgtReqCb) : 0 < cb.pktsz := by
  unfold SgtReqCb.pktsz
  split
  · exact Nat.lt_min.2 ⟨Nat.pos_of_ne_zero ‹_›, by decide⟩
  · decide

theorem updateRequest_cons {q : Descq} {cb : SgtReqCb} {work : List SgtReqCb}
    (hw : q.workList = cb :: work) (numDesc dataCnt : ℕ) :
    q.updateRequest numDesc dataCnt =
      if cb.offset + dataCnt ≥ cb.req.count then
        { q with
          workList := work
          pendList := q.pendList ++
            [{ cb with descNr := cb.descNr + numDesc, offset := cb.offset + dataCnt }] }
      else
        { q with workList :=
            { cb with descNr := cb.descNr + numDesc, offset := cb.offset + dataCnt } :: work } := by
  rw [Descq.updateRequest]
  simp only [hw]

namespace Inv

theorem wellFormed_of_work (h : Inv c subs s w) {cb : SgtReqCb} (hcb : cb ∈ s.q.workList) :
    cb.submitted.WellFormed := by
  refine h.wellFormed _ ?_
  rw [h.reqs]
  exact List.mem_map_of_mem (List.mem_append_right _ hcb)

theorem findOffset_spec {cb : SgtReqCb} (hwf : cb.submitted.WellFormed)
    (hlt : cb.offset < cb.req.count ∨ cb.offset = 0) :
    ∃ i off, sglFindOffset cb = some (i, off) ∧ i < cb.req.sgcnt ∧ off ≤ (cb.req.sgl i).len ∧
      (0 < cb.req.count → off < (cb.req.sgl i).len) ∧
      (sgBytes cb.req.sgl (cb.req.sgcnt - i) i).drop off = (reqBytes cb.req).drop cb.offset := by
  have hlen : (reqBytes cb.req).length = cb.req.count := hwf.length_reqBytes
  rw [sglFindOffset]
  rcases Nat.eq_zero_or_pos cb.req.count with h0 | hpos
  · rw [if_pos h0]
    refine ⟨0, 0, rfl, hwf.sgcnt_pos, Nat.zero_le _, fun h ↦ absurd h0 h.ne', ?_⟩
    rw [hlt.resolve_left (by omega)]
    rfl
  · obtain ⟨i, off, hfind, hi, hoff, hdrop⟩ := findOffsetFrom_spec (hwf.pos hpos)
      (Nat.zero_add cb.req.sgcnt) (Nat.zero_le cb.offset)
      (by rw [Nat.zero_add]; exact (show cb.offset < _ by omega).trans_eq hlen.symm)
    rw [if_neg hpos.ne']
    exact ⟨i, off, hfind, hi, hoff.le, fun _ ↦ hoff, hdrop⟩

/-- An iteration sets up descriptors for the first request, at least one and no more than there is
room for, which go on where those set up before end. -/
theorem setUp (h : Inv c subs s w) {cb : SgtReqCb} {work : List SgtReqCb}
    (hw : s.q.workList = cb :: work) (ha : s.q.avail ≠ 0) :
    ∃ i off ds, sglFindOffset cb = some (i, off) ∧
      Filled c.rngsz ⟨s.q.desc, s.q.pidx, 0, 0, off⟩ (fillSgl c.rngsz cb.pktsz s.q.avail cb.req.sgl
        (cb.req.sgcnt - i) i ⟨s.q.desc, s.q.pidx, 0, 0, off⟩) ds ∧
      0 < ds.length ∧ (0 < cb.req.count → 0 < (bytes ds).length) ∧ ds.length ≤ s.q.avail ∧
      bytes (w.cur ++ ds) = (reqBytes cb.req).take (cb.offset + (bytes ds).length) ∧
      cb.offset + (bytes ds).length ≤ cb.req.count := by
  have hwork := h.work
  rw [hw] at hwork
  obtain ⟨hcur, hlt, -, -⟩ := hwork
  have hwf := h.wellFormed_of_work (hw ▸ List.mem_cons_self)
  have hlen : (reqBytes cb.req).length = cb.req.count := hwf.length_reqBytes
  obtain ⟨i, off, hfind, hi, hoff, hoff', hdrop⟩ := findOffset_spec hwf hlt
  obtain ⟨ds, more, hfill, hmore, hle, -, hpos⟩ := fillSgl_spec s.q.avail
    (s := ⟨s.q.desc, s.q.pidx, 0, 0, off⟩) (k := cb.req.sgcnt - i) (i := i) h.rngsz_pos (pktsz_pos cb)
    (fun _ ↦ hoff) (Nat.zero_le _)
  dsimp only at hmore hle hpos
  obtain ⟨hds, hbytes⟩ := hpos (by omega) (Nat.pos_of_ne_zero ha)
  rw [hdrop] at hmore
  rw [Nat.zero_add] at hle
  have htotal := congrArg List.length hmore
  rw [List.length_append, List.length_drop, hlen] at htotal
  refine ⟨i, off, ds, hfind, hfill, hds, fun h0 ↦ hbytes (hoff' h0), hle, ?_, by omega⟩
  rw [bytes_append, hcur, List.take_add]
  congr 1
  exact (List.take_left' rfl).symm.trans (congrArg (List.take _) hmore)

/-- Descriptors are set up for the first request, whether it stays on the work list or not. -/
theorem written (h : Inv c subs s w) {work pendList : List SgtReqCb} (pend : List (List H2cDesc))
    (cur : List H2cDesc) {ds : List H2cDesc} {f : Fill} {off : ℕ}
    (hf : Filled c.rngsz ⟨s.q.desc, s.q.pidx, 0, 0, off⟩ f ds) (hle : ds.length ≤ s.q.avail)
    (hall : (History.mk w.done pend cur w.acked w.reported w.fetched w.told).all = w.all ++ ds)
    (hreqs : subs = (s.done.map Prod.fst ++ pendList ++ work).map SgtReqCb.submitted)
    (hpend : List.Forall₂ Pending pendList pend) (hwork : Working work cur)
    (hsum : (pendList.map SgtReqCb.descNr).sum + cur.length =
      (s.q.pendList.map SgtReqCb.descNr).sum + w.cur.length + ds.length)
    (hlt : pendList ≠ [] → s.q.credit < (pendList.map SgtReqCb.descNr).sum) :
    Inv c subs { s with q := { s.q with
        desc := f.desc, workList := work, pendList := pendList, pidx := f.pidx
        avail := s.q.avail - f.descCnt } }
      ⟨w.done, pend, cur, w.acked, w.reported, w.fetched, w.told⟩ := by
  obtain ⟨hab, hbh, hht, htl⟩ := h.order
  have hcnt : f.descCnt = ds.length := hf.descCnt.trans (Nat.zero_add _)
  have hcredit := h.credit
  have havail := h.avail
  have hlall : (w.all ++ ds).length = w.all.length + ds.length := List.length_append
  refine .mk hreqs h.wellFormed h.done hpend hwork ?_ hlt ?_ ?_ h.cidx ?_ h.device h.pidxInfo ?_
  · rw [hall, hlall]
    dsimp only
    omega
  · have hpush := h.ring.pushes ds (by rw [List.length_drop]; omega)
    rw [← hf.ring] at hpush
    rw [hall, List.drop_append_of_le_length (by dsimp only; omega)]
    exact hpush
  · rw [hall, hlall]
    dsimp only
    omega
  · rw [hall, hlall]
    dsimp only
    omega
  · rw [hall, List.take_append_of_le_length (by dsimp only; omega)]
    exact h.wire

theorem advance (h : Inv c subs s w) {cb : SgtReqCb} {work : List SgtReqCb}
    (hw : s.q.workList = cb :: work) {off : ℕ} {f : Fill} {ds : List H2cDesc}
    (hf : Filled c.rngsz ⟨s.q.desc, s.q.pidx, 0, 0, off⟩ f ds) (hpos : 0 < ds.length)
    (hle : ds.length ≤ s.q.avail)
    (hb : bytes (w.cur ++ ds) = (reqBytes cb.req).take (cb.offset + (bytes ds).length))
    (hc : cb.offset + (bytes ds).length ≤ cb.req.count) :
    ∃ w', Inv c subs { s with q := { { s.q with desc := f.desc }.updateRequest f.descCnt f.dataCnt with
      pidx := f.pidx, avail := s.q.avail - f.descCnt } } w' := by
  have hwork := h.work
  have hreqs := h.reqs
  rw [hw] at hwork hreqs
  obtain ⟨-, hlt, hnr, hrest⟩ := hwork
  have hlen : (reqBytes cb.req).length = cb.req.count :=
    (h.wellFormed_of_work (hw ▸ List.mem_cons_self)).length_reqBytes
  have hcnt : f.descCnt = ds.length := hf.descCnt.trans (Nat.zero_add _)
  have hdata : f.dataCnt = (bytes ds).length := hf.dataCnt.trans (Nat.zero_add _)
  have hcredit := h.credit
  obtain ⟨hab, hbh, hht, htl⟩ := h.order
  rw [updateRequest_cons (q := { s.q with desc := f.desc }) hw]
  by_cases hfull : cb.offset + f.dataCnt ≥ cb.req.count
  · rw [if_pos hfull]
    have hoff : cb.offset + (bytes ds).length = cb.req.count := by omega
    refine ⟨_, h.written (w.pend ++ [w.cur ++ ds]) [] hf hle ?_ ?_
      (List.rel_append h.pend (.cons ⟨?_, ?_, ?_, ?_⟩ .nil)) ?_ ?_ fun _ ↦ ?_⟩
    · simp [History.all]
    · rw [hreqs]
      simp [SgtReqCb.submitted]
    · rw [Covers, hb, hoff, ← hlen, List.take_length]
    · exact (congrArg _ hdata).trans hoff
    · dsimp only
      omega
    · dsimp only
      rw [hnr, hcnt, List.length_append]
    · rcases work with _ | ⟨x, work⟩
      · rfl
      · have hx := hrest x List.mem_cons_self
        refine ⟨?_, .inr hx.1, hx.2, fun y hy ↦ hrest y (.tail _ hy)⟩
        rw [hx.1]
        rfl
    · rw [List.map_append, List.sum_append, hcnt]
      simp only [List.map_cons, List.map_nil, List.sum_cons, List.sum_nil, List.length_nil]
      omega
    · rw [List.map_append, List.sum_append, hcnt]
      simp only [List.map_cons, List.map_nil, List.sum_cons, List.sum_nil]
      omega
  · rw [if_neg hfull]
    refine ⟨_, h.written w.pend (w.cur ++ ds) hf hle ?_ ?_ h.pend ⟨?_, ?_, ?_, hrest⟩
      ?_ h.credit_lt⟩
    · simp [History.all]
    · rw [hreqs]
      simp [SgtReqCb.submitted]
    · dsimp only
      rw [hb, hdata]
    · exact .inl (not_le.1 hfull)
    · dsimp only
      rw [hnr, hcnt, List.length_append]
    · dsimp only
      rw [List.length_append]
      omega

end Inv

/-- The bytes of the requests on the work list that no descriptor carries yet; a request for none
counts as one. -/
def Descq.remaining (q : Descq) : ℕ := (q.workList.map fun cb ↦ max 1 (cb.req.count - cb.offset)).sum

theorem updateRequest_avail (q : Descq) (numDesc dataCnt : ℕ) :
    (q.updateRequest numDesc dataCnt).avail = q.avail := by
  rw [Descq.updateRequest]
  split
  · rfl
  · dsimp only
    split <;> rfl

theorem cmplStatus_workList (s : Sys) : (s.cmplStatus c).q.workList = s.q.workList := by
  rw [Sys.cmplStatus]
  dsimp only
  split
  · rfl
  · split <;> rfl

theorem moves_q (s : Sys) (ms : List Move) : (s.moves c ms).q = s.q := by
  induction ms generalizing s with
  | nil => rfl
  | cons m ms ih =>
    refine (ih (s.move c m)).trans ?_
    cases m with
    | fetch =>
      rw [Sys.move]
      split <;> rfl
    | writeBack => rfl

namespace Proc

variable {p r : Proc}

theorem wait_q (p : Proc) : (p.wait c).sys.q = p.sys.q := by
  rw [wait]
  split
  · rfl
  · exact moves_q _ _

theorem poll_workList (p : Proc) : (p.poll c).sys.q.workList = p.sys.q.workList := by
  rw [poll]
  split
  · rw [cmplStatus_workList, wait_q]
  · rw [wait_q]

theorem inv_wait (h : Inv c subs p.sys w) :
    ∃ w', Inv c subs (p.wait c).sys w' ∧ w'.all = w.all ∧ w'.told = w.told ∧ w'.acked = w.acked := by
  rw [wait]
  split
  · exact ⟨w, h, rfl, rfl, rfl⟩
  · exact h.moves _

theorem inv_poll (h : Inv c subs p.sys w) :
    ∃ w', Inv c subs (p.poll c).sys w' ∧ w'.all = w.all ∧ w'.told = w.told ∧ w.acked ≤ w'.acked := by
  obtain ⟨w', h', hall, htold, hacked⟩ := inv_wait h
  rw [poll]
  split
  · obtain ⟨w'', h'', hall', htold', hacked'⟩ := h'.cmplStatus
    have hle := h'.order.1
    exact ⟨w'', h'', hall'.trans hall, htold'.trans htold, by omega⟩
  · exact ⟨w', h', hall, htold, hacked.ge⟩

/-- The device is told of all descriptors, unless some have been set up in this call. -/
def Ok (c : Conf) (subs : List SgtReqCb) (p : Proc) : Prop :=
  ∃ w, Inv c subs p.sys w ∧ (p.descWritten = 0 → w.told = w.all.length)

theorem poll_descWritten (p : Proc) : (p.poll c).descWritten = p.descWritten := by
  have hwait : (p.wait c).descWritten = p.descWritten := by
    rw [wait]
    split <;> rfl
  rw [poll]
  split <;> exact hwait

theorem Ok.poll (h : p.Ok c subs) : (p.poll c).Ok c subs := by
  obtain ⟨w, h, hw⟩ := h
  obtain ⟨w', h', hall, htold, -⟩ := inv_poll h
  refine ⟨w', h', fun h0 ↦ ?_⟩
  rw [htold, hall]
  exact hw ((poll_descWritten p).symm.trans h0)

theorem Ok.body (h : p.Ok c subs) :
    (∃ r, p.body c = .inl r ∧ r.Ok c subs ∧ r.sys.q.workList = p.sys.q.workList ∧
      (p.sys.q.workList = [] ∧ r = p ∨ p.sys.q.avail = 0)) ∨
    ∃ r, p.body c = .inr r ∧ r.Ok c subs ∧ r.sys.q.remaining < p.sys.q.remaining := by
  rw [Proc.body]
  rcases hw : p.sys.q.workList with _ | ⟨cb, work⟩
  · exact .inl ⟨p, rfl, h, hw, .inl ⟨rfl, rfl⟩⟩
  dsimp only
  obtain ⟨p₁, hp₁, hw₁, h₁⟩ : ∃ p₁, (if p.sys.q.avail = 0 then p.poll c else p) = p₁ ∧
      p₁.sys.q.workList = cb :: work ∧ p₁.Ok c subs := by
    split
    · exact ⟨_, rfl, (poll_workList p).trans hw, h.poll⟩
    · exact ⟨p, rfl, hw, h⟩
  rw [hp₁]
  by_cases ha : p₁.sys.q.avail = 0
  · rw [if_pos ha]
    refine .inl ⟨p₁, rfl, h₁, hw₁, .inr ?_⟩
    by_contra hne
    rw [if_neg hne] at hp₁
    exact hne (hp₁ ▸ ha)
  rw [if_neg ha]
  obtain ⟨w₁, h₁, -⟩ := h₁
  obtain ⟨i, off, ds, hfind, hfill, hds, hpos, hle, hb, hc⟩ := h₁.setUp hw₁ ha
  obtain ⟨w₂, h₂⟩ := h₁.advance hw₁ hfill hds hle hb hc
  have hcnt := hfill.descCnt.trans (Nat.zero_add _)
  have hdata := hfill.dataCnt.trans (Nat.zero_add _)
  rw [hfind]
  dsimp only
  rw [if_neg (by omega)]
  refine .inr ⟨_, rfl, ⟨w₂, ?_, fun h0 ↦ ?_⟩, ?_⟩
  · dsimp only
    rw [updateRequest_avail]
    exact h₂
  · dsimp only at h0
    omega
  rw [Descq.remaining, Descq.remaining, hw, List.map_cons, List.sum_cons]
  simp only [Descq.updateRequest, hw₁, hdata]
  split
  · dsimp only
    omega
  · simp only [List.map_cons, List.sum_cons]
    omega

end Proc

def Ready (c : Conf) (subs : List SgtReqCb) (s : Sys) : Prop :=
  ∃ w, Inv c subs s w ∧ w.told = w.all.length

theorem Proc.Ok.finish {p : Proc} (h : p.Ok c subs) : Ready c subs (p.finish c) := by
  obtain ⟨w, h, hw⟩ := h
  rw [Proc.finish]
  split
  · obtain ⟨w₁, h₁, -⟩ := Proc.inv_wait h
    obtain ⟨hab, hbh, hht, htl⟩ := h₁.order
    have hpidx : (p.wait c).sys.q.pidx = w₁.all.length % c.rngsz := by
      rw [h₁.ring.wr_eq, List.length_drop, h₁.slot_cidx (by omega)]
    obtain ⟨w₂, h₂, hall, htold, -⟩ := Proc.inv_poll (c := c)
      (p := { p.wait c with sys := { (p.wait c).sys with
        q := { (p.wait c).sys.q with pidxInfo := (p.wait c).sys.q.pidx }
        dev := { (p.wait c).sys.dev with pidx := (p.wait c).sys.q.pidx } } })
      (w := { w₁ with told := w₁.all.length })
      { h₁ with
        order := ⟨hab, hbh, hht.trans htl, le_rfl⟩
        device := ⟨h₁.device.1, h₁.device.2.1, hpidx⟩
        pidxInfo := rfl }
    exact ⟨w₂, h₂, by rw [htold, hall]; rfl⟩
  · exact ⟨w, h, hw (not_not.1 ‹_›)⟩

theorem ok_start (env : List (List Move)) (h : Ready c subs s) :
    (Proc.poll c ⟨s, env, 0⟩).Ok c subs := by
  obtain ⟨w, h, hw⟩ := h
  have hok : (Proc.mk s env 0).Ok c subs := ⟨w, h, fun _ ↦ hw⟩
  exact hok.poll

theorem ok_of_ends {p r : Proc} (h : p.Ok c subs) (hends : Loop.Ends (Proc.body c) p r) :
    r.Ok c subs := by
  refine hends.of_invariant (I := Proc.Ok c subs) (fun p r h hgo ↦ ?_) (fun p r h hleave ↦ ?_) h
  · rcases h.body with ⟨r', hr', -⟩ | ⟨r', hr', hok, -⟩
    · cases hgo.symm.trans hr'
    · exact Sum.inr.inj (hgo.symm.trans hr') ▸ hok
  · rcases h.body with ⟨r', hr', hok, -⟩ | ⟨r', hr', -⟩
    · exact Sum.inl.inj (hleave.symm.trans hr') ▸ hok
    · cases hleave.symm.trans hr'

theorem Ready.proc {env : List (List Move)} (h : Ready c subs s) (hp : ProcRequest c env s t) :
    Ready c subs t := by
  obtain ⟨p, hends, rfl⟩ := hp
  exact (ok_of_ends (ok_start env h) hends).finish

theorem Ready.moves (h : Ready c subs s) (ms : List Move) : Ready c subs (s.moves c ms) := by
  obtain ⟨w, h, hw⟩ := h
  obtain ⟨w', h', hall, htold, -⟩ := h.moves ms
  exact ⟨w', h', by rw [htold, hall, hw]⟩

theorem Ready.cmplStatus (h : Ready c subs s) : Ready c subs (s.cmplStatus c) := by
  obtain ⟨w, h, hw⟩ := h
  obtain ⟨w', h', hall, htold, -⟩ := h.cmplStatus
  exact ⟨w', h', by rw [htold, hall, hw]⟩

theorem init_inv (hz : 0 < c.rngsz) (desc : ℕ → H2cDesc) :
    Inv c [] (.init c desc) ⟨[], [], [], 0, 0, 0, 0⟩ where
  reqs := rfl
  wellFormed _ h := by cases h
  done := .nil
  pend := .nil
  work := rfl
  credit := rfl
  credit_lt h := absurd rfl h
  ring := .nil hz
  avail := by
    change 0 + (c.rngsz - 1) + 1 = c.rngsz
    omega
  cidx := (Nat.zero_mod _).symm
  order := ⟨le_rfl, le_rfl, le_rfl, le_rfl⟩
  device := ⟨(Nat.zero_mod _).symm, (Nat.zero_mod _).symm, (Nat.zero_mod _).symm⟩
  pidxInfo := rfl
  wire := rfl

theorem Reachable.ready (hz : 0 < c.rngsz) (h : Reachable c subs s) : Ready c subs s := by
  induction h with
  | init desc => exact ⟨_, init_inv hz desc, rfl⟩
  | submit _ hcb ih =>
    obtain ⟨w, h, hw⟩ := ih
    exact ⟨w, h.submit hcb, hw⟩
  | move _ m ih => exact ih.moves [m]
  | proc _ hp ih => exact ih.proc hp
  | service _ ih => exact ih.cmplStatus

end QdmaTrafficGen.StH2c
