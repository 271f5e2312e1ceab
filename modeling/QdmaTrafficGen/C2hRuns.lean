import Mathlib.Data.List.Forall2
import QdmaTrafficGen.C2hData
import QdmaTrafficGen.FreeListRuns

open Function Clocked Sequential

namespace QdmaTrafficGen.StC2h

/-- The buffers that the first `k` packets take. -/
def bufsOf (c : Conf) (l : List (List ℕ)) (k : ℕ) : ℕ :=
  ((l.take k).map fun p ↦ bufsFor c.c2hBufsz p.length).sum

section

variable {c : Conf} {l : List (List ℕ)} {p : List ℕ} {j k : ℕ}

theorem bufsOf_succ (h : l[k]? = some p) :
    bufsOf c l (k + 1) = bufsOf c l k + bufsFor c.c2hBufsz p.length := by
  rw [bufsOf, bufsOf, List.take_add_one, h]
  simp

theorem bufsOf_concat (hk : k ≤ l.length) : bufsOf c (l ++ [p]) k = bufsOf c l k := by
  rw [bufsOf, List.take_append_of_le_length hk, bufsOf]

theorem bufsFor_pos (bufsz len : ℕ) : 0 < bufsFor bufsz len := Nat.lt_of_lt_of_le Nat.zero_lt_one
  (Nat.le_max_left _ _)

theorem bufsOf_add_le (hk : j + k ≤ l.length) : bufsOf c l j + k ≤ bufsOf c l (j + k) := by
  induction k with
  | zero => exact le_rfl
  | succ k ih =>
    obtain ⟨p, hp⟩ : ∃ p, l[j + k]? = some p :=
      ⟨_, List.getElem?_eq_getElem (show j + k < l.length by omega)⟩
    have hpos := bufsFor_pos c.c2hBufsz p.length
    have hle := ih (by omega)
    have hsucc := bufsOf_succ (c := c) hp
    rw [Nat.add_assoc] at hsucc
    omega

theorem bufsOf_mono (hjk : j ≤ k) (hk : k ≤ l.length) : bufsOf c l j ≤ bufsOf c l k := by
  obtain ⟨i, rfl⟩ := Nat.exists_eq_add_of_le hjk
  exact (Nat.le_add_right _ i).trans (bufsOf_add_le hk)

end

/-- The driver counts the buffers of a packet of this length as the device does. -/
def Countable (c : Conf) (len : ℕ) : Prop :=
  c.c2hBufsz.isPowerOfTwo ∨ ¬len.isPowerOfTwo ∨ len ≤ c.c2hBufsz

/-- What has become of a packet: it went up, or there was no memory for it. -/
def Came (o : Option (List ℕ)) (pkt : List ℕ) : Prop := o = some pkt ∨ o = none

def statsOf (l : List (Option (List ℕ))) : RxStats :=
  ⟨(l.filterMap id).length, ((l.filterMap id).map List.length).sum, l.count none⟩

/-- How many buffers have been refilled and how many of these the device knows of; how many packets
had been processed when the driver last told their number to itself and to the device; and how many
the device has reported. -/
structure History where
  refilled : ℕ
  given : ℕ
  behind : ℕ
  freed : ℕ
  reported : ℕ

def PhaseOk (c : Conf) (s : Sys) (w : History) : Prop :=
  match s.phase with
  | .serving v => w.behind + v.procCnt = s.up.length ∧ w.refilled = bufsOf c s.received w.behind ∧
      v.pidx = bufsOf c s.received s.up.length % c.rngsz ∧ v.pidxPend = w.refilled % c.rngsz ∧
      s.up.length + v.left ≤ w.reported
  | _ => w.behind = s.up.length ∧ w.refilled = bufsOf c s.received s.up.length

structure Inv (c : Conf) (s : Sys) (w : History) : Prop where
  err : s.q.err = false
  countable : ∀ p ∈ s.received, Countable c p.length
  pages : Pages c s.q.flq (w.refilled / c.numBufsPerPg) w.refilled (w.refilled + c.rngsz)
  len : ∀ j, bufsOf c s.received s.up.length ≤ j → j < w.refilled + c.rngsz →
    (s.q.flq.sdesc (j % c.rngsz)).len = c.c2hBufsz
  bufs : w.given ≤ w.refilled ∧ w.refilled ≤ bufsOf c s.received s.up.length ∧
    bufsOf c s.received s.received.length ≤ w.given + (c.rngsz - 1)
  avail : s.q.avail + (bufsOf c s.received s.up.length - w.refilled) = c.rngsz - 1
  pidx : s.q.pidx = w.refilled % c.rngsz
  pidxPend : s.q.pidxPend = bufsOf c s.received s.up.length % c.rngsz
  pidxInfo : s.q.pidxInfo = (w.refilled + c.rngsz - 1) % c.rngsz
  cmpts : w.freed ≤ w.behind ∧ w.behind ≤ s.up.length ∧ s.up.length ≤ w.reported ∧
    w.reported ≤ s.received.length ∧ s.received.length ≤ w.freed + (c.rngszCmpt - 1)
  wrbCidx : s.q.wrbCidx = w.behind % c.rngszCmpt
  cidxCmpt : s.q.cidxCmpt = s.up.length % c.rngszCmpt
  color : s.q.color = Ring.evenLap c.rngszCmpt s.up.length
  descs : s.dev.cidx = bufsOf c s.received s.received.length % c.rngsz ∧
    s.dev.pidx = (w.given + c.rngsz - 1) % c.rngsz
  entries : s.dev.cmptPidx = s.received.length % c.rngszCmpt ∧
    s.dev.color = Ring.evenLap c.rngszCmpt s.received.length ∧
    s.dev.cmptCidx = w.freed % c.rngszCmpt ∧ s.dev.status = w.reported % c.rngszCmpt
  entry : ∀ k p, s.up.length ≤ k → s.received[k]? = some p →
    parseCmplEntry (s.cmpt (k % c.rngszCmpt)) =
      ⟨false, Ring.evenLap c.rngszCmpt k, false, true, p.length⟩
  data : ∀ k p, s.up.length ≤ k → s.received[k]? = some p → ∀ i < bufsFor c.c2hBufsz p.length,
    readBuf c s.mem (bufsOf c s.received k + i) (bufChunk c.c2hBufsz p i).length =
      bufChunk c.c2hBufsz p i
  up : List.Forall₂ Came s.up (s.received.take s.up.length)
  stats : s.stats = statsOf s.up
  phase : PhaseOk c s w

namespace Inv

variable {c : Conf} {s t : Sys} {w : History} {pkt : List ℕ} {e : ℕ}

theorem receive (hc : c.Ok) (h : Inv c s w) (ha : s.Accepts c pkt e)
    (hp : Countable c pkt.length) : Inv c (s.receive c pkt e) w := by
  have hz := Nat.zero_lt_of_lt hc.rngsz
  have hz' := Nat.zero_lt_of_lt hc.rngszCmpt
  obtain ⟨hgr, hrK, hMg⟩ := h.bufs
  obtain ⟨hfb, hbK, hKr, hrM, hMf⟩ := h.cmpts
  obtain ⟨hdcidx, hdpidx⟩ := h.descs
  obtain ⟨hcp, hcol, hcc, hst⟩ := h.entries
  have hKM : s.up.length ≤ s.received.length := by omega
  have hmono := bufsOf_mono (c := c) hKM le_rfl
  have hget : (s.received ++ [pkt])[s.received.length]? = some pkt := List.getElem?_concat_length
  have hsucc : bufsOf c (s.received ++ [pkt]) (s.received.length + 1) =
      bufsOf c s.received s.received.length + bufsFor c.c2hBufsz pkt.length := by
    rw [bufsOf_succ hget, bufsOf_concat le_rfl]
  have hroom := ha.bufs
  rw [hdpidx, hdcidx, Nat.add_sub_assoc hz, ringIdxDelta_mod hz hMg (by omega)] at hroom
  have hfree : s.received.length + 1 ≤ w.freed + (c.rngszCmpt - 1) := by
    have hne := ha.room
    rw [hcp, hcc, ringIdxIncr_mod hz' hz'] at hne
    by_contra hlt
    refine hne ?_
    rw [show s.received.length + 1 = w.freed + c.rngszCmpt by omega, Nat.add_mod_right]
  obtain ⟨hdata, hother⟩ := dmaPacket_spec hc h.pages (hrK.trans hmono) s.mem
    (show _ + bufsFor c.c2hBufsz pkt.length ≤ _ by omega)
  have hcases {k : ℕ} {p : List ℕ} (hk : (s.received ++ [pkt])[k]? = some p) :
      k < s.received.length ∧ s.received[k]? = some p ∨ k = s.received.length ∧ p = pkt := by
    obtain ⟨hlt, -⟩ := List.getElem?_eq_some_iff.1 hk
    rw [List.length_append, List.length_singleton] at hlt
    rcases Nat.lt_succ_iff_lt_or_eq.1 hlt with hlt | rfl
    · exact .inl ⟨hlt, by rwa [List.getElem?_append_left hlt] at hk⟩
    · exact .inr ⟨rfl, (Option.some.inj (hget.symm.trans hk)).symm⟩
  have hsame := bufsOf_concat (c := c) (p := pkt) hKM
  rw [Sys.receive]
  refine { h with
    countable := List.forall_mem_append.2 ⟨h.countable, fun p hmem ↦ List.mem_singleton.1 hmem ▸ hp⟩
    len := ?_, bufs := ?_, avail := ?_, pidxPend := ?_, cmpts := ?_, descs := ?_, entries := ?_
    entry := ?_, data := ?_, up := ?_, phase := ?_ }
  · dsimp only
    rw [hsame]
    exact h.len
  · dsimp only
    rw [hsame, List.length_append, List.length_singleton, hsucc]
    omega
  · dsimp only
    rw [hsame]
    exact h.avail
  · dsimp only
    rw [hsame]
    exact h.pidxPend
  · dsimp only
    rw [List.length_append, List.length_singleton]
    omega
  · dsimp only
    rw [List.length_append, List.length_singleton, hsucc, hdcidx, Nat.mod_add_mod]
    exact ⟨rfl, hdpidx⟩
  · dsimp only
    rw [List.length_append, List.length_singleton, hcp, succ_mod_eq hz', Ring.evenLap_succ hz', hcol]
    exact ⟨rfl, rfl, hcc, hst⟩
  · dsimp only
    intro k p hk hkp
    rcases hcases hkp with ⟨hlt, hget⟩ | ⟨rfl, rfl⟩
    · rw [hcp, update_of_ne (Pages.mod_ne (R := s.up.length) ⟨hk, by omega⟩ ⟨hKM, by omega⟩ hlt.ne)]
      exact h.entry k p hk hget
    · rw [hcp, update_self, ha.entry, hcol]
  · dsimp only
    intro k p hk hkp i hi
    rcases hcases hkp with ⟨hlt, hget⟩ | ⟨rfl, rfl⟩
    · have hnext := bufsOf_succ (c := c) hget
      have hle := bufsOf_mono (c := c) (show k + 1 ≤ s.received.length from hlt) le_rfl
      have hchunk := (length_bufChunk c.c2hBufsz p i).trans_le (Nat.min_le_left _ _)
      rw [bufsOf_concat hlt.le, hdcidx, hother _ (by omega) _ hchunk]
      exact h.data k p hk hget i hi
    · rw [bufsOf_concat le_rfl, hdcidx]
      exact hdata i hi
  · dsimp only
    rw [List.take_append_of_le_length hKM]
    exact h.up
  · have hphase := h.phase
    unfold PhaseOk at hphase ⊢
    dsimp only
    split at hphase
    next v hv =>
      obtain ⟨h₁, h₂, h₃⟩ := hphase
      rw [hsame, bufsOf_concat (by omega)]
      exact ⟨h₁, h₂, h₃⟩
    next => rwa [hsame]

theorem writeStatus (h : Inv c s w) :
    Inv c s.writeStatus { w with reported := s.received.length } := by
  obtain ⟨hfb, hbK, hKr, hrM, hMf⟩ := h.cmpts
  obtain ⟨hcp, hcol, hcc, -⟩ := h.entries
  refine { h with
    cmpts := ⟨hfb, hbK, hKr.trans hrM, le_rfl, hMf⟩
    entries := ⟨hcp, hcol, hcc, hcp⟩
    phase := ?_ }
  have hphase := h.phase
  unfold PhaseOk at hphase ⊢
  rw [Sys.writeStatus]
  dsimp only at hphase ⊢
  split at hphase
  next v hv =>
    obtain ⟨h₁, h₂, h₃, h₄, h₅⟩ := hphase
    exact ⟨h₁, h₂, h₃, h₄, h₅.trans hrM⟩
  next => exact hphase

theorem pend_eq (hc : c.Ok) (h : Inv c s w) :
    ringIdxDelta s.dev.status s.q.cidxCmpt c.rngszCmpt = w.reported - s.up.length := by
  obtain ⟨hfb, hbK, hKr, hrM, hMf⟩ := h.cmpts
  obtain ⟨-, -, -, hst⟩ := h.entries
  have hz := hc.rngszCmpt
  rw [hst, h.cidxCmpt, ringIdxDelta_mod (by omega) hKr (by omega)]

theorem beginService (hc : c.Ok) (h : Inv c s w) (hidle : s.phase = .idle) (budget : ℕ) :
    ∃ w', Inv c (s.beginService c budget) w' := by
  have hphase := h.phase
  rw [PhaseOk, hidle] at hphase
  obtain ⟨hbehind, hrefilled⟩ := hphase
  obtain ⟨hfb, hbK, hKr, hrM, hMf⟩ := h.cmpts
  obtain ⟨hcp, hcol, hcc, hst⟩ := h.entries
  rw [Sys.beginService, h.err, if_neg Bool.false_ne_true, h.pend_eq hc]
  dsimp only
  split
  next =>
    by_cases hp : c.polled = true
    · rw [if_pos hp]
      exact ⟨w, { h with phase := ⟨hbehind, hrefilled⟩ }⟩
    · rw [if_neg hp]
      exact ⟨{ w with freed := w.behind }, { h with
        cmpts := ⟨le_rfl, hbK, hKr, hrM, by dsimp only; omega⟩
        entries := ⟨hcp, hcol, h.wrbCidx, hst⟩
        phase := ⟨hbehind, hrefilled⟩ }⟩
  next hpend =>
    refine ⟨w, { h with phase := ⟨hbehind, ?_, ?_, ?_, ?_⟩ }⟩
    · rw [hbehind, hrefilled]
    · dsimp only
      rw [h.pidx, hrefilled]
    · dsimp only
      rw [h.pidxPend, hrefilled]
    · dsimp only
      split <;> omega

theorem updatePointers (h : Inv c s w) (hserved : s.phase = .served) :
    Inv c s.updatePointers { w with given := w.refilled, freed := w.behind } := by
  have hphase := h.phase
  rw [PhaseOk, hserved] at hphase
  obtain ⟨hgr, hrK, hMg⟩ := h.bufs
  obtain ⟨hfb, hbK, hKr, hrM, hMf⟩ := h.cmpts
  obtain ⟨hcp, hcol, hcc, hst⟩ := h.entries
  exact { h with
    bufs := ⟨le_rfl, hrK, by dsimp only [Sys.updatePointers]; omega⟩
    cmpts := ⟨le_rfl, hbK, hKr, hrM, by dsimp only [Sys.updatePointers]; omega⟩
    descs := ⟨h.descs.1, h.pidxInfo⟩
    entries := ⟨hcp, hcol, h.wrbCidx, hst⟩
    phase := hphase }

end Inv

theorem Pages.setLen {c : Conf} {f : Flq} {r R F : ℕ} (h : Pages c f r R F) (i l : ℕ) :
    Pages c { f with sdesc := update f.sdesc i { f.sdesc i with len := l } } r R F where
  __ := h
  buf j hj hj' := by
    obtain ⟨len, hbuf⟩ := h.buf j hj hj'
    dsimp only
    by_cases hi : j % c.rngsz = i
    · subst hi
      rw [update_self, hbuf]
      exact ⟨l, rfl⟩
    · rw [update_of_ne hi]
      exact ⟨len, hbuf⟩

theorem statsOf_concat (l : List (Option (List ℕ))) (pkt : List ℕ) (ok : Bool) :
    (if ok then { statsOf l with
        rxPackets := (statsOf l).rxPackets + 1, rxBytes := (statsOf l).rxBytes + pkt.length }
      else { statsOf l with rxDropped := (statsOf l).rxDropped + 1 }) =
    statsOf (l ++ [if ok then some pkt else none]) := by
  cases ok <;> simp [statsOf]

namespace Inv

variable {c : Conf} {s t : Sys} {w : History} {v : Serving} {pkt : List ℕ}

theorem copyPacket_eq (hc : c.Ok) (h : Inv c s w) (hget : s.received[s.up.length]? = some pkt)
    {N nb : ℕ} (hN : N = bufsOf c s.received s.up.length) (hnb : nb = bufsFor c.c2hBufsz pkt.length)
    (hle : N + nb ≤ w.refilled + c.rngsz) :
    copyPacket c s.mem (update s.q.flq.sdesc ((N + nb - 1) % c.rngsz)
      { s.q.flq.sdesc ((N + nb - 1) % c.rngsz) with
        len := lastLen c.c2hBufsz pkt.length })
      pkt.length nb (N % c.rngsz) 0 = pkt := by
  have hrN : w.refilled ≤ N := hN ▸ h.bufs.2.1
  rcases Nat.eq_zero_or_pos pkt.length with h0 | hl
  · rw [hnb, h0, bufsFor_zero hc.c2hBufsz, copyPacket, if_neg (Nat.lt_irrefl 0),
      List.length_eq_zero_iff.1 h0]
  obtain ⟨n, hlo, hhi⟩ := exists_bufs hc.c2hBufsz hl
  have hn : nb = n + 1 := hnb.trans (bufsFor_eq hc.c2hBufsz hlo hhi)
  rw [hn]
  refine copyPacket_spec hc hlo hhi (fun i hi ↦ ?_) fun i hi ↦ ?_
  · obtain ⟨len, hbuf⟩ := h.pages.buf (N + i) (by omega) (by omega)
    by_cases heq : i = n
    · rw [show N + (n + 1) - 1 = N + i by omega, update_self, hbuf, if_pos heq,
        lastLen_eq hc.c2hBufsz hlo hhi]
      exact ⟨_, rfl⟩
    · have hlen := h.len (N + i) (by omega) (by omega)
      have hslot : (N + i) % c.rngsz ≠ (N + (n + 1) - 1) % c.rngsz :=
        Pages.mod_ne (R := w.refilled) ⟨by omega, by omega⟩ ⟨by omega, by omega⟩ (by omega)
      rw [update_of_ne hslot, if_neg heq]
      rw [hbuf] at hlen ⊢
      exact ⟨_, by rw [← hlen]⟩
  · exact hN ▸ h.data s.up.length pkt le_rfl hget i (by omega)

/-- The driver takes the next packet as it came in out of the buffers that it lies in. -/
theorem rcvPkt (hc : c.Ok) (h : Inv c s w) (hget : s.received[s.up.length]? = some pkt) (ok : Bool) :
    ∃ f, s.rcvPkt c (bufsOf c s.received s.up.length % c.rngsz) pkt.length ok =
      ({ s with
        q := { s.q with
          flq := f
          avail := s.q.avail - bufsFor c.c2hBufsz pkt.length
          pidxPend := bufsOf c s.received (s.up.length + 1) % c.rngsz }
        up := s.up ++ [if ok then some pkt else none]
        stats := statsOf (s.up ++ [if ok then some pkt else none]) },
        some (bufsOf c s.received (s.up.length + 1) % c.rngsz)) ∧
      Pages c f (w.refilled / c.numBufsPerPg) w.refilled (w.refilled + c.rngsz) ∧
      (∀ j, bufsOf c s.received (s.up.length + 1) ≤ j → j < w.refilled + c.rngsz →
        (f.sdesc (j % c.rngsz)).len = c.c2hBufsz) ∧
      bufsFor c.c2hBufsz pkt.length ≤ s.q.avail := by
  have hz := Nat.zero_lt_of_lt hc.rngsz
  obtain ⟨hgr, hrK, hMg⟩ := h.bufs
  have hpos := bufsFor_pos c.c2hBufsz pkt.length
  have hsucc := bufsOf_succ (c := c) hget
  have hlt := (List.getElem?_eq_some_iff.1 hget).1
  have hle := bufsOf_mono (c := c) (show s.up.length + 1 ≤ s.received.length from hlt) le_rfl
  have havail := h.avail
  obtain ⟨hnr, hlen⟩ := getFlNr_eq hc.c2hBufsz hc.descBufSize.2.1 hc.descBufSize.2.2
    (h.countable pkt (List.mem_of_getElem? hget))
  rcases hfl : getFlNr pkt.length c.c2hBufsz c.descPgShift (2 ^ c.descPgShift - 1) with ⟨flNr, lLen⟩
  rw [hfl] at hnr hlen
  obtain rfl : flNr = _ := hnr
  set N := bufsOf c s.received s.up.length
  set nb := bufsFor c.c2hBufsz pkt.length with hnb
  have hlast : ringIdxIncr (N % c.rngsz) (nb - 1) c.rngsz = (N + nb - 1) % c.rngsz := by
    rw [ringIdxIncr_mod hz (by omega), Nat.add_sub_assoc hpos]
  have hnext : ringIdxIncr ((N + nb - 1) % c.rngsz) 1 c.rngsz = (N + nb) % c.rngsz := by
    rw [ringIdxIncr_mod hz hz, Nat.sub_add_cancel (by omega)]
  have hcopy := h.copyPacket_eq hc hget rfl hnb (by omega)
  have hstats := statsOf_concat s.up pkt ok
  rw [← h.stats] at hstats
  rw [Sys.rcvPkt, Nat.shiftLeft_eq, Nat.one_mul, hfl]
  dsimp only at hlen ⊢
  rw [hlen, hlast, hnext, if_neg (by omega), hsucc, hcopy, ← hstats]
  refine ⟨_, rfl, h.pages.setLen _ _, fun j hj hj' ↦ ?_, by omega⟩
  dsimp only
  rw [update_of_ne (Pages.mod_ne (R := w.refilled) ⟨by omega, hj'⟩ ⟨by omega, by omega⟩ (by omega))]
  exact h.len j (by omega) hj'

theorem processEntry (hc : c.Ok) (h : Inv c s w) (hs : s.phase = .serving v) (hl : 0 < v.left)
    (ok : Bool) : Inv c (s.processEntry c v ok) w ∧
      (s.processEntry c v ok).phase = .serving { v with
        left := v.left - 1
        procCnt := v.procCnt + 1
        pidx := bufsOf c s.received (s.up.length + 1) % c.rngsz } ∧
      (s.processEntry c v ok).up.length = s.up.length + 1 := by
  have hz' := Nat.zero_lt_of_lt hc.rngszCmpt
  have hphase := h.phase
  rw [PhaseOk, hs] at hphase
  obtain ⟨hcnt, hrefilled, hpidx, hpend, hleft⟩ := hphase
  obtain ⟨hgr, hrK, hMg⟩ := h.bufs
  obtain ⟨hfb, hbK, hKr, hrM, hMf⟩ := h.cmpts
  obtain ⟨pkt, hget⟩ : ∃ p, s.received[s.up.length]? = some p :=
    ⟨_, List.getElem?_eq_getElem (show s.up.length < s.received.length by omega)⟩
  have hentry := h.entry _ pkt le_rfl hget
  obtain ⟨f, hrcv, hpages, hlen, havail⟩ := h.rcvPkt hc hget ok
  have hsucc := bufsOf_succ (c := c) hget
  have hpos := bufsFor_pos c.c2hBufsz pkt.length
  rw [Sys.processEntry, h.cidxCmpt, hentry]
  simp only [CmptInfo.bad, Bool.not_true, Bool.or_false, Bool.false_eq_true, if_false]
  rw [if_neg (not_not.2 h.color.symm), hpidx, hrcv]
  dsimp only
  have hlength : (s.up ++ [if ok then some pkt else none]).length = s.up.length + 1 :=
    List.length_append
  have hcame : Came (if ok then some pkt else none) pkt := by
    cases ok
    · exact .inr rfl
    · exact .inl rfl
  have hcmpt := succ_mod_eq hz' s.up.length
  have hlap := Ring.evenLap_succ (k := s.up.length) hz'
  have hq : Sys.cmptNext c { s.q with
      flq := f
      avail := s.q.avail - bufsFor c.c2hBufsz pkt.length
      pidxPend := bufsOf c s.received (s.up.length + 1) % c.rngsz } = { s.q with
        flq := f
        avail := s.q.avail - bufsFor c.c2hBufsz pkt.length
        pidxPend := bufsOf c s.received (s.up.length + 1) % c.rngsz
        cidxCmpt := (s.up.length + 1) % c.rngszCmpt
        color := Ring.evenLap c.rngszCmpt (s.up.length + 1) } := by
    rw [Sys.cmptNext]
    dsimp only
    rw [h.cidxCmpt, ← hcmpt, hlap, h.color]
    split <;> rfl
  rw [hq]
  refine ⟨{ h with
    pages := hpages, len := ?_, bufs := ?_, avail := ?_, pidxPend := ?_, cmpts := ?_
    cidxCmpt := ?_, color := ?_, entry := ?_, data := ?_, up := ?_, stats := rfl, phase := ?_ }, rfl, hlength⟩
  · dsimp only
    rw [hlength]
    exact hlen
  · dsimp only
    rw [hlength]
    omega
  · dsimp only
    have hav := h.avail
    rw [hlength]
    omega
  · dsimp only
    rw [hlength]
  · dsimp only
    rw [hlength]
    omega
  · dsimp only
    rw [hlength]
  · dsimp only
    rw [hlength]
  · dsimp only
    rw [hlength]
    exact fun k p hk hp ↦ h.entry k p (by omega) hp
  · dsimp only
    rw [hlength]
    exact fun k p hk hp ↦ h.data k p (by omega) hp
  · dsimp only
    rw [hlength, List.take_add_one, hget]
    exact List.rel_append h.up (.cons hcame .nil)
  · unfold PhaseOk
    dsimp only
    rw [hlength]
    exact ⟨by omega, hrefilled, rfl, hpend, by omega⟩

end Inv

end QdmaTrafficGen.StC2h
