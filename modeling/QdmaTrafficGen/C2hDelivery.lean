import Mathlib.Logic.Relation
import QdmaTrafficGen.C2hRuns

open Function Clocked Sequential Relation

namespace QdmaTrafficGen.StC2h

variable {c : Conf} {s t : Sys} {w : History} {v : Serving}

/-- The call leaves as many buffers in the ring as the last page can have there, which it always does
if a page has at most two buffers. -/
def RefillFits (c : Conf) (s : Sys) (v : Serving) : Prop :=
  c.numBufsPerPg ≤ 2 ∨
    ringIdxDelta s.q.pidxPend v.pidxPend c.rngsz + c.numBufsPerPg ≤ c.rngsz + 1

theorem Sys.EndService.unique {mem : List Bool} {t' : Sys} (h : s.EndService c v mem t)
    (h' : s.EndService c v mem t') : t = t' := by
  unfold Sys.EndService at h h'
  split at h
  next hcnt =>
    rw [if_pos hcnt] at h'
    exact h.trans h'.symm
  next hcnt =>
    rw [if_neg hcnt] at h'
    dsimp only at h h'
    split at h
    next hpend =>
      rw [if_pos hpend] at h'
      exact h.trans h'.symm
    next hpend =>
      rw [if_neg hpend] at h'
      obtain ⟨r, hr, rfl⟩ := h
      obtain ⟨r', hr', rfl⟩ := h'
      rw [hr.unique hr']

theorem Inv.endService (hc : c.Ok) (h : Inv c s w) (hs : s.phase = .serving v) {mem : List Bool}
    (hm : false ∉ mem) (hfit : RefillFits c s v) : ∃ t, s.EndService c v mem t ∧
      Inv c t { w with refilled := bufsOf c s.received s.up.length, behind := s.up.length } ∧
      t.phase = .served ∧ t.up = s.up := by
  have hz := Nat.zero_lt_of_lt hc.rngsz
  have hn := hc.maxPgOffset.1
  have hphase := h.phase
  rw [PhaseOk, hs] at hphase
  obtain ⟨hcnt, hrefilled, hpidx, hpend, hleft⟩ := hphase
  obtain ⟨hgr, hrK, hMg⟩ := h.bufs
  obtain ⟨hfb, hbK, hKr, hrM, hMf⟩ := h.cmpts
  have hmono := bufsOf_mono (c := c) (show s.up.length ≤ s.received.length by omega) le_rfl
  unfold Sys.EndService
  by_cases h0 : v.procCnt = 0
  · have hbehind : w.behind = s.up.length := by omega
    simp only [if_pos h0]
    rw [← hbehind, ← hrefilled]
    exact ⟨_, rfl, { h with phase := ⟨hbehind, hbehind ▸ hrefilled⟩ }, rfl, rfl⟩
  have hmore := bufsOf_add_le (c := c) (l := s.received) (j := w.behind) (k := v.procCnt) (by omega)
  rw [hcnt, ← hrefilled] at hmore
  have hne : s.q.pidxPend ≠ v.pidxPend := by
    rw [h.pidxPend, hpend]
    exact Pages.mod_ne (R := w.refilled) ⟨hrK, by omega⟩ ⟨le_rfl, by omega⟩ (by omega)
  have hdelta : ringIdxDelta s.q.pidxPend v.pidxPend c.rngsz =
      bufsOf c s.received s.up.length - w.refilled := by
    rw [h.pidxPend, hpend, ringIdxDelta_mod hz hrK (by omega)]
  have hroom : w.refilled + (bufsOf c s.received s.up.length - w.refilled) ≤
      (w.refilled + c.rngsz) / c.numBufsPerPg * c.numBufsPerPg := by
    have hlast := (div_bounds hn (w.refilled + c.rngsz)).2
    rcases hfit with hfit | hfit <;> omega
  obtain ⟨f, hf, hpages, hlen, hother⟩ := h.pages.refill hc hroom hm
    (Nat.mod_lt w.refilled hz).le (by rw [Nat.mod_mod, Nat.add_mod_right])
  rw [Nat.add_sub_cancel' hrK] at hpages hother
  simp only [if_neg h0, if_neg hne, hdelta]
  rw [hpend]
  have hstill : bufsOf c s.received s.up.length ≤ bufsOf c s.received s.received.length := hmono
  have havail := h.avail
  refine ⟨_, ⟨_, hf, rfl⟩, { h with
    pages := ?_, len := ?_, bufs := ⟨by dsimp only; omega, le_rfl, hMg⟩
    avail := by dsimp only; omega
    pidx := hpidx
    pidxInfo := by dsimp only; rw [h.pidxPend, ringIdxDecr_mod hz]
    cmpts := ⟨by dsimp only; omega, le_rfl, hKr, hrM, hMf⟩
    wrbCidx := h.cidxCmpt
    phase := ⟨rfl, rfl⟩ }, rfl, rfl⟩
  · dsimp only
    rwa [show w.refilled + c.rngsz + (bufsOf c s.received s.up.length - w.refilled) =
      bufsOf c s.received s.up.length + c.rngsz by omega] at hpages
  · dsimp only
    intro j hj hj'
    rcases Nat.lt_or_ge j (w.refilled + c.rngsz) with hlt | hge
    · rw [hother j hj hlt]
      exact h.len j hj hlt
    · exact hlen j hge (by omega)

/-- What the steps of the device and the driver are promised: the driver counts the buffers of a
packet as the device does, there are pages, and enough buffers stay in the ring. -/
def Sound (c : Conf) (s : Sys) : Event → Prop
  | .receive pkt _ => Countable c pkt.length
  | .endService mem => false ∉ mem ∧ ∀ v, s.phase = .serving v → RefillFits c s v
  | _ => True

/-- The states of a queue after it has been started. -/
inductive Reachable (c : Conf) : Sys → Prop
  | init {f : Flq} (h : descqFlqAllocResource c = some f) (cmpt : ℕ → ℕ) (mem : Mem) :
      Reachable c (.init c f cmpt mem)
  | step {s t : Sys} {e : Event} (h : Reachable c s) (he : Sound c s e) (hs : Step c s e t) :
      Reachable c t

theorem init_inv (hc : c.Ok) {f : Flq} (h : descqFlqAllocResource c = some f) (cmpt : ℕ → ℕ)
    (mem : Mem) : Inv c (.init c f cmpt mem) ⟨0, 0, 0, 0, 0⟩ := by
  obtain ⟨g, hg, hpages, hlen⟩ := allocResource hc
  obtain rfl := Option.some.inj (h.symm.trans hg)
  have hz := Nat.zero_lt_of_lt hc.rngsz
  have hb : bufsOf c [] 0 = 0 := rfl
  have hmod : c.rngsz - 1 = (0 + c.rngsz - 1) % c.rngsz := by
    rw [Nat.zero_add, Nat.mod_eq_of_lt (by omega)]
  have hzero (k : ℕ) : 0 = 0 % k := (Nat.zero_mod k).symm
  have heven : true = Ring.evenLap c.rngszCmpt 0 := by
    rw [Ring.evenLap, Nat.zero_div]
    rfl
  refine {
    err := rfl
    countable := fun p hp ↦ by cases hp
    pages := ?_
    len := fun j _ hj ↦ ?_
    bufs := ⟨le_rfl, le_rfl, Nat.zero_le _⟩
    avail := rfl
    pidx := hzero _
    pidxPend := hzero _
    pidxInfo := hmod
    cmpts := ⟨le_rfl, le_rfl, le_rfl, le_rfl, Nat.zero_le _⟩
    wrbCidx := hzero _
    cidxCmpt := hzero _
    color := heven
    descs := ⟨hzero _, hmod⟩
    entries := ⟨hzero _, heven, hzero _, hzero _⟩
    entry := fun k p _ hp ↦ by cases hp
    data := fun k p _ hp ↦ by cases hp
    up := .nil
    stats := rfl
    phase := ⟨rfl, rfl⟩ }
  · dsimp only
    rwa [Nat.zero_div, Nat.zero_add]
  · rw [Nat.zero_add] at hj
    rw [Nat.mod_eq_of_lt hj]
    exact hlen j hj

theorem Inv.step (hc : c.Ok) (h : Inv c s w) {e : Event} (he : Sound c s e) (hs : Step c s e t) :
    ∃ w', Inv c t w' := by
  cases e with
  | receive pkt e =>
    obtain ⟨ha, rfl⟩ := hs
    exact ⟨w, h.receive hc ha he⟩
  | writeStatus =>
    obtain rfl := hs
    exact ⟨_, h.writeStatus⟩
  | beginService budget =>
    obtain ⟨hidle, rfl⟩ := hs
    exact h.beginService hc hidle budget
  | processEntry ok =>
    obtain ⟨v, hv, hl, rfl⟩ := hs
    exact ⟨w, (h.processEntry hc hv hl ok).1⟩
  | endService mem =>
    obtain ⟨v, hv, -, ht⟩ := hs
    obtain ⟨t', ht', hinv, -⟩ := h.endService hc hv he.1 (he.2 v hv)
    exact ⟨_, ht.unique ht' ▸ hinv⟩
  | updatePointers =>
    obtain ⟨hserved, rfl⟩ := hs
    exact ⟨_, h.updatePointers hserved⟩

theorem Reachable.inv (hc : c.Ok) (h : Reachable c s) : ∃ w, Inv c s w := by
  induction h with
  | init h cmpt mem => exact ⟨_, init_inv hc h cmpt mem⟩
  | step _ he hs ih =>
    obtain ⟨w, h⟩ := ih
    exact h.step hc he hs

def fourPages : Conf := ⟨4, 4, 4096, false⟩

theorem fourPages_ok : fourPages.Ok := ⟨by decide, by decide, by decide⟩

def fourPagesFlq : Flq := (descqFlqAllocResource fourPages).getD
  ⟨0, 0, fun _ ↦ ⟨0, false, 0⟩, fun _ ↦ ⟨none, 0, none, 0⟩, 0, fun _ ↦ 0⟩

theorem fourPagesFlq_eq : descqFlqAllocResource fourPages = some fourPagesFlq := by
  obtain ⟨f, hf, -⟩ := allocResource fourPages_ok
  rw [fourPagesFlq, hf]
  rfl

/-- A packet of three bytes has come in and the device has reported it. -/
def threeBytes : Sys :=
  ((Sys.init fourPages fourPagesFlq (fun _ ↦ 0) fun _ _ ↦ 0).receive fourPages [7, 8, 9] 58).writeStatus

theorem threeBytes_reachable : Reachable fourPages threeBytes :=
  .step (e := .writeStatus)
    (.step (e := .receive [7, 8, 9] 58) (.init fourPagesFlq_eq _ _) (.inr (.inl (by decide)))
      ⟨⟨by decide, by decide, by decide, rfl⟩, rfl⟩) trivial rfl

def threeBytesServing : Sys := threeBytes.beginService fourPages 64

theorem threeBytesServing_reachable : Reachable fourPages threeBytesServing :=
  .step (e := .beginService 64) threeBytes_reachable trivial ⟨rfl, rfl⟩

def threeBytesUp : Sys := threeBytesServing.processEntry fourPages ⟨1, 0, 0, 0⟩ true

theorem threeBytesUp_reachable : Reachable fourPages threeBytesUp :=
  .step (e := .processEntry true) threeBytesServing_reachable trivial ⟨⟨1, 0, 0, 0⟩, rfl, by decide, rfl⟩

example : threeBytesUp.up = [some [7, 8, 9]] := by decide

/-- Whatever the order in which packets come in and the driver works: it passes on the packets that
the device has received, each once, in order and with the bytes that it had, but for those that there
is no memory for. It counts them all right, and never takes a completion for an error. -/
theorem Reachable.passed_on (hc : c.Ok) (h : Reachable c s) :
    List.Forall₂ Came s.up (s.received.take s.up.length) ∧ s.stats = statsOf s.up ∧
      s.q.err = false := by
  obtain ⟨w, h⟩ := h.inv hc
  exact ⟨h.up, h.stats, h.err⟩

theorem Reachable.passed_on_three : List.Forall₂ Came threeBytesUp.up [[7, 8, 9]] ∧
    threeBytesUp.stats = statsOf threeBytesUp.up ∧ threeBytesUp.q.err = false :=
  Reachable.passed_on fourPages_ok threeBytesUp_reachable

/-- No two entries of the ring ever share a buffer. The driver never releases a page, but takes a
new one for each that all buffers of have been passed on. -/
theorem Reachable.pages_held (hc : c.Ok) (h : Reachable c s) : Distinct c s.q.flq ∧
    (∀ k < s.q.flq.allocated, 0 < s.q.flq.refs k) ∧
    (s.phase = .idle → s.q.flq.allocated =
      c.numPages + bufsOf c s.received s.up.length / c.numBufsPerPg) := by
  obtain ⟨w, h⟩ := h.inv hc
  have hn := hc.maxPgOffset.1
  have hP := Pages.numPages_pos hc
  refine ⟨h.pages.distinct hc, fun k hk ↦ ?_, fun hidle ↦ ?_⟩
  · rw [h.pages.allocated] at hk
    rw [h.pages.refs]
    by_cases hr : w.refilled / c.numBufsPerPg ≤ k
    · rw [if_pos ⟨hr, hk⟩]
      omega
    · have hle := mul_add_le (n := c.numBufsPerPg) (not_le.1 hr)
      have hlo := (div_bounds hn w.refilled).1
      have hRF := h.pages.le
      omega
  · have hphase := h.phase
    rw [PhaseOk, hidle] at hphase
    rw [h.pages.allocated, ← hphase.2, Nat.add_comm]

theorem Reachable.pages_held_three : Distinct fourPages threeBytes.q.flq ∧
    (∀ k < threeBytes.q.flq.allocated, 0 < threeBytes.q.flq.refs k) ∧
    threeBytes.q.flq.allocated = 4 := by
  obtain ⟨hd, hrefs, hall⟩ := Reachable.pages_held fourPages_ok threeBytes_reachable
  exact ⟨hd, hrefs, hall rfl⟩

def Within (c : Conf) (s t : Sys) : Prop := ∃ e, Sound c s e ∧ Step c s e t ∧ t.phase ≠ .idle

/-- The call is on the way to `n` packets processed in all. -/
def Toward (n : ℕ) (s : Sys) : Prop :=
  match s.phase with
  | .idle => False
  | .serving v => s.up.length + v.left = n
  | .served => s.up.length = n

theorem Toward.step (hc : c.Ok) (h : Inv c s w) {n : ℕ} (hn : Toward n s) (hs : Within c s t) :
    Toward n t := by
  obtain ⟨e, he, hs, ht⟩ := hs
  have hn' := hn
  unfold Toward at hn
  cases e with
  | receive pkt e =>
    obtain ⟨-, rfl⟩ := hs
    exact hn'
  | writeStatus =>
    obtain rfl := hs
    exact hn'
  | beginService budget =>
    rw [hs.1] at hn
    exact hn.elim
  | processEntry ok =>
    obtain ⟨v, hv, hl, rfl⟩ := hs
    obtain ⟨-, hphase, hup⟩ := h.processEntry hc hv hl ok
    rw [hv] at hn
    dsimp only at hn
    rw [Toward, hphase, hup]
    dsimp only
    omega
  | endService mem =>
    obtain ⟨v, hv, hl, hend⟩ := hs
    obtain ⟨t', ht', -, hphase, hup⟩ := h.endService hc hv he.1 (he.2 v hv)
    rw [hv] at hn
    rw [hend.unique ht', Toward, hphase, hup]
    dsimp only at hn ⊢
    omega
  | updatePointers =>
    obtain ⟨-, rfl⟩ := hs
    exact absurd rfl ht

theorem Inv.within (hc : c.Ok) (h : Inv c s w) {n : ℕ} (hn : Toward n s)
    (hs : ReflTransGen (Within c) s t) : (∃ w, Inv c t w) ∧ Toward n t := by
  induction hs with
  | refl => exact ⟨⟨w, h⟩, hn⟩
  | tail _ hstep ih =>
    obtain ⟨⟨w, h⟩, hn⟩ := ih
    obtain ⟨e, he, hs, ht⟩ := hstep
    exact ⟨h.step hc he hs, hn.step hc h ⟨e, he, hs, ht⟩⟩

theorem Inv.ends (hc : c.Ok) (hsmall : c.numBufsPerPg ≤ 2) {k : ℕ} (h : Inv c s w)
    (hs : s.phase = .serving v) (hk : v.left = k) :
    ∃ t, ReflTransGen (Within c) s t ∧ t.phase = .served := by
  induction k generalizing s v with
  | zero =>
    obtain ⟨t, ht, -, hphase, -⟩ := h.endService hc hs (@List.not_mem_nil _ false) (.inl hsmall)
    have hsound : Sound c s (.endService []) := ⟨List.not_mem_nil, fun _ _ ↦ .inl hsmall⟩
    exact ⟨t, .single ⟨_, hsound, ⟨v, hs, hk, ht⟩, by rw [hphase]; exact Phase.noConfusion⟩, hphase⟩
  | succ k ih =>
    obtain ⟨hinv, hphase, -⟩ := h.processEntry hc hs (by omega) true
    obtain ⟨t, ht, hserved⟩ := ih hinv hphase (by dsimp only; omega)
    refine ⟨t, .head ⟨.processEntry true, trivial, ⟨v, hs, by omega, rfl⟩, ?_⟩ ht, hserved⟩
    rw [hphase]
    exact Phase.noConfusion

theorem rcvPkt_grows (s : Sys) (pidx len : ℕ) (ok : Bool) :
    s.up <+: (s.rcvPkt c pidx len ok).1.up ∧ (s.rcvPkt c pidx len ok).1.received = s.received := by
  unfold Sys.rcvPkt
  dsimp only
  split
  · exact ⟨List.prefix_rfl, rfl⟩
  · exact ⟨List.prefix_append _ _, rfl⟩

theorem Step.grows {e : Event} (hs : Step c s e t) : s.up <+: t.up ∧ s.received <+: t.received := by
  have hkeep : s.up <+: s.up ∧ s.received <+: s.received := ⟨List.prefix_rfl, List.prefix_rfl⟩
  cases e with
  | receive pkt e =>
    obtain ⟨-, rfl⟩ := hs
    exact ⟨List.prefix_rfl, List.prefix_append _ _⟩
  | writeStatus =>
    obtain rfl := hs
    exact hkeep
  | beginService budget =>
    obtain ⟨-, rfl⟩ := hs
    unfold Sys.beginService
    dsimp only
    split
    · exact hkeep
    · split <;> exact hkeep
  | processEntry ok =>
    obtain ⟨v, -, -, rfl⟩ := hs
    have hgrows := rcvPkt_grows (c := c) s v.pidx (parseCmplEntry (s.cmpt s.q.cidxCmpt)).len ok
    unfold Sys.processEntry
    dsimp only
    split
    · exact hkeep
    split
    · exact hkeep
    split
    all_goals
      next heq =>
        rw [heq] at hgrows
        exact ⟨hgrows.1, (congrArg (s.received <+: ·) hgrows.2).mpr List.prefix_rfl⟩
  | endService mem =>
    obtain ⟨v, -, -, hend⟩ := hs
    unfold Sys.EndService at hend
    split at hend
    · exact hend ▸ hkeep
    · dsimp only at hend
      split at hend
      · exact hend ▸ hkeep
      · obtain ⟨r, -, rfl⟩ := hend
        exact hkeep
  | updatePointers =>
    obtain ⟨-, rfl⟩ := hs
    exact hkeep

theorem grows_within (hs : ReflTransGen (Within c) s t) :
    s.up <+: t.up ∧ s.received <+: t.received := by
  induction hs with
  | refl => exact ⟨List.prefix_rfl, List.prefix_rfl⟩
  | tail _ hstep ih =>
    obtain ⟨e, -, hs, -⟩ := hstep
    exact ⟨ih.1.trans hs.grows.1, ih.2.trans hs.grows.2⟩

def toProcess (c : Conf) (s : Sys) (budget : ℕ) : ℕ :=
  let pend := ringIdxDelta s.dev.status s.q.cidxCmpt c.rngszCmpt
  if budget = 0 ∨ budget > pend then pend else budget

theorem Inv.toProcess_le (hc : c.Ok) (h : Inv c s w) (budget : ℕ) :
    s.up.length + toProcess c s budget ≤ s.received.length := by
  obtain ⟨-, -, hKr, hrM, -⟩ := h.cmpts
  rw [toProcess, h.pend_eq hc]
  split <;> omega

theorem toward_beginService (h : Inv c s w) (budget : ℕ) :
    Toward (s.up.length + toProcess c s budget) (s.beginService c budget) := by
  rw [Sys.beginService, h.err, if_neg Bool.false_ne_true, toProcess]
  dsimp only
  by_cases hpend : ringIdxDelta s.dev.status s.q.cidxCmpt c.rngszCmpt = 0
  · rw [if_pos hpend, Toward]
    dsimp only
    split <;> omega
  · rw [if_neg hpend]
    rfl

/-- A call processes the packets that the device has reported when it begins, or as many of them as
its budget allows, whatever the device does meanwhile: each is passed on as it came in, or dropped
because there is no memory for it. From every state that it comes to it can go on to its end if a page
has at most two buffers. -/
theorem Reachable.poll_processes (hc : c.Ok) (h : Reachable c s) (hidle : s.phase = .idle) (budget : ℕ) :
    (∀ t, ReflTransGen (Within c) (s.beginService c budget) t → t.phase = .served →
      ∃ new, t.up = s.up ++ new ∧
        List.Forall₂ Came new ((s.received.drop s.up.length).take (toProcess c s budget))) ∧
    (c.numBufsPerPg ≤ 2 → ∀ t, ReflTransGen (Within c) (s.beginService c budget) t →
      ∃ t', ReflTransGen (Within c) t t' ∧ t'.phase = .served) := by
  obtain ⟨w, h⟩ := h.inv hc
  obtain ⟨w', hbegin⟩ := h.beginService hc hidle budget
  have htoward := toward_beginService h budget
  refine ⟨fun t ht hserved ↦ ?_, fun hsmall t ht ↦ ?_⟩
  · obtain ⟨⟨w'', hinv⟩, hn⟩ := hbegin.within hc htoward ht
    rw [Toward, hserved] at hn
    dsimp only at hn
    have hsteps : Step c s (.beginService budget) (s.beginService c budget) := ⟨hidle, rfl⟩
    obtain ⟨new, hup⟩ := hsteps.grows.1.trans (grows_within ht).1
    obtain ⟨more, hmore⟩ := hsteps.grows.2.trans (grows_within ht).2
    have hcame := hinv.up
    rw [hn, ← hmore, List.take_append_of_le_length (h.toProcess_le hc budget), ← hup] at hcame
    refine ⟨new, hup.symm, ?_⟩
    have hdrop := List.forall₂_drop s.up.length hcame
    rwa [List.drop_left, List.drop_take, Nat.add_sub_cancel_left] at hdrop
  · obtain ⟨⟨w'', hinv⟩, hn⟩ := hbegin.within hc htoward ht
    unfold Toward at hn
    split at hn
    next => exact hn.elim
    next v hv => exact hinv.ends hc hsmall hv rfl
    next hv => exact ⟨t, .refl, hv⟩

theorem Reachable.poll_processes_three : ∃ t, ReflTransGen (Within fourPages)
    (threeBytes.beginService fourPages 64) t ∧ List.Forall₂ Came t.up [[7, 8, 9]] := by
  obtain ⟨hup, hends⟩ := Reachable.poll_processes fourPages_ok threeBytes_reachable rfl 64
  obtain ⟨t, ht, hserved⟩ := hends (by decide) _ .refl
  obtain ⟨new, hnew, hcame⟩ := hup t ht hserved
  exact ⟨t, ht, hnew ▸ hcame⟩

end QdmaTrafficGen.StC2h
