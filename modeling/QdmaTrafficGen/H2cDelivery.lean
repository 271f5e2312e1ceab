import QdmaTrafficGen.H2cRuns

open Clocked Sequential

namespace QdmaTrafficGen.StH2c

variable {c : Conf} {subs : List SgtReqCb} {s t : Sys} {w : History}

def allBytes (l : List SgtReqCb) : List ℕ := l.flatMap fun cb ↦ reqBytes cb.req

theorem allBytes_append (l l' : List SgtReqCb) : allBytes (l ++ l') = allBytes l ++ allBytes l' :=
  List.flatMap_append

theorem allBytes_submitted (l : List SgtReqCb) :
    allBytes (l.map SgtReqCb.submitted) = allBytes l := List.flatMap_map _ _ l

theorem bytes_flatten {α : Type*} {R : α → List H2cDesc → Prop} {cb : α → SgtReqCb} {l : List α}
    {gs : List (List H2cDesc)} (h : List.Forall₂ R l gs) (hR : ∀ a g, R a g → Covers (cb a) g) :
    bytes gs.flatten = allBytes (l.map cb) := by
  induction h with
  | nil => rfl
  | cons hag _ ih =>
    rw [List.flatten_cons, bytes_append, ih, hR _ _ hag]
    rfl

theorem prefix_bytes {ds es : List H2cDesc} (h : ds <+: es) : bytes ds <+: bytes es := by
  obtain ⟨fs, rfl⟩ := h
  exact ⟨bytes fs, (bytes_append ds fs).symm⟩

theorem sum_descNr_le {pend : List SgtReqCb} {gs : List (List H2cDesc)}
    (h : List.Forall₂ Pending pend gs) : (pend.map SgtReqCb.descNr).sum ≤ gs.flatten.length := by
  induction h with
  | nil => exact Nat.le_refl 0
  | cons hcb _ ih =>
    rw [List.map_cons, List.sum_cons, List.flatten_cons, List.length_append]
    exact Nat.add_le_add hcb.2.2.2 ih

theorem error_eq_zero {done : List (SgtReqCb × ℤ)} {gs : List (List H2cDesc)}
    (h : List.Forall₂ (fun r g ↦ Covers r.1 g ∧ r.2 = 0) done gs) : ∀ r ∈ done, r.2 = 0 := by
  induction h with
  | nil => exact fun r hr ↦ by cases hr
  | cons hr _ ih => exact List.forall_mem_cons.2 ⟨hr.2, ih⟩

namespace Inv

theorem bytes_done (h : Inv c subs s w) :
    bytes w.done.flatten = allBytes (s.done.map Prod.fst) := bytes_flatten h.done fun _ _ h ↦ h.1

theorem bytes_open_prefix (h : Inv c subs s w) :
    bytes (w.pend.flatten ++ w.cur) <+: allBytes (s.q.pendList ++ s.q.workList) := by
  have hpend : bytes w.pend.flatten = allBytes (s.q.pendList.map id) :=
    bytes_flatten h.pend fun _ _ h ↦ h.1
  rw [List.map_id] at hpend
  rw [bytes_append, hpend, allBytes_append]
  refine List.prefix_append_right_inj _ |>.2 ?_
  have hwork := h.work
  rcases hw : s.q.workList with _ | ⟨cb, work⟩
  · rw [hw] at hwork
    rw [hwork]
    exact List.nil_prefix
  · rw [hw] at hwork
    rw [hwork.1]
    exact (List.take_prefix _ _).trans (List.prefix_append _ _)

theorem bytes_all_prefix (h : Inv c subs s w) : bytes w.all <+: allBytes subs := by
  rw [History.all, List.append_assoc, bytes_append, h.bytes_done, h.reqs, allBytes_submitted,
    List.append_assoc, allBytes_append]
  exact List.prefix_append_right_inj _ |>.2 h.bytes_open_prefix

theorem length_done_le (h : Inv c subs s w) : w.done.flatten.length ≤ w.acked := by
  have hsum := sum_descNr_le h.pend
  have hcredit := h.credit
  rw [History.all, List.length_append, List.length_append] at hcredit
  omega

theorem wire_prefix (h : Inv c subs s w) : bytes s.dev.wire <+: allBytes subs := by
  rw [h.wire]
  exact (prefix_bytes (List.take_prefix _ _)).trans h.bytes_all_prefix

theorem done_prefix (h : Inv c subs s w) :
    allBytes (s.done.map Prod.fst) <+: bytes s.dev.wire := by
  rw [h.wire, ← h.bytes_done]
  refine prefix_bytes (List.prefix_take_iff.2 ⟨?_, ?_⟩)
  · rw [History.all, List.append_assoc]
    exact List.prefix_append _ _
  · exact h.length_done_le.trans (h.order.1.trans h.order.2.1)

end Inv

def smallRing : Conf := ⟨3, true⟩

def tenBytes : SgtReqCb := ⟨0, ⟨10, 1, fun _ ↦ ⟨none, 10, 100⟩⟩, 4, 0, 0⟩

theorem tenBytes_wellFormed : tenBytes.WellFormed :=
  ⟨Nat.one_pos, fun _ _ _ ↦ Nat.succ_pos 9, rfl, by decide, rfl, rfl⟩

def noBytes : SgtReqCb := ⟨1, ⟨0, 1, fun _ ↦ ⟨none, 0, 200⟩⟩, 0, 0, 0⟩

theorem noBytes_wellFormed : noBytes.WellFormed :=
  ⟨Nat.one_pos, fun h ↦ absurd h (Nat.lt_irrefl 0), rfl, by decide, rfl, rfl⟩

def bothWaiting : Sys :=
  let s := Sys.init smallRing fun _ ↦ ⟨0, 0⟩
  { s with q := { s.q with workList := s.q.workList ++ [tenBytes] ++ [noBytes] } }

/-- The state after a call whose loop ends within `k` iterations. -/
def procIn (k : ℕ) (env : List (List Move)) (s : Sys) : Sys :=
  ((Loop.run (Proc.body smallRing) k (Proc.poll smallRing ⟨s, env, 0⟩)).map
    (Proc.finish smallRing)).getD s

theorem procRequest_procIn {k : ℕ} {env : List (List Move)}
    (h : (Loop.run (Proc.body smallRing) k (Proc.poll smallRing ⟨s, env, 0⟩)).isSome = true) :
    ProcRequest smallRing env s (procIn k env s) := by
  obtain ⟨p, hp⟩ := Option.isSome_iff_exists.1 h
  refine ⟨p, ⟨k, hp⟩, ?_⟩
  rw [procIn, hp]
  rfl

/-- Two descriptors are set up, and the device has fetched the first one. -/
def tenStarted : Sys := procIn 2 [[], [], [], [.fetch]] bothWaiting

theorem tenStarted_reachable : Reachable smallRing [tenBytes, noBytes] tenStarted :=
  .proc (.submit (.submit (.init fun _ ↦ ⟨0, 0⟩) tenBytes_wellFormed) noBytes_wellFormed)
    (procRequest_procIn (by decide))

/-- Whatever the order in which requests come in, the driver works and the device moves: the requests
are completed in the order in which they were submitted, each of them once and without an error; the
device sends their bytes one after the other, no byte twice and none in between; and all bytes of a
request are sent when it is completed. -/
theorem Reachable.in_order (hz : 0 < c.rngsz) (h : Reachable c subs s) :
    subs = (s.done.map Prod.fst ++ s.q.pendList ++ s.q.workList).map SgtReqCb.submitted ∧
    (∀ r ∈ s.done, r.2 = 0) ∧
    bytes s.dev.wire <+: allBytes subs ∧
    allBytes (s.done.map Prod.fst) <+: bytes s.dev.wire := by
  obtain ⟨w, h, -⟩ := h.ready hz
  exact ⟨h.reqs, error_eq_zero h.done, h.wire_prefix, h.done_prefix⟩

theorem Reachable.in_order_started :
    [tenBytes, noBytes] = (tenStarted.done.map Prod.fst ++ tenStarted.q.pendList ++
      tenStarted.q.workList).map SgtReqCb.submitted ∧
    (∀ r ∈ tenStarted.done, r.2 = 0) ∧
    bytes tenStarted.dev.wire <+: allBytes [tenBytes, noBytes] ∧
    allBytes (tenStarted.done.map Prod.fst) <+: bytes tenStarted.dev.wire :=
  Reachable.in_order (by decide) tenStarted_reachable

def Sys.toFetch (c : Conf) (s : Sys) : ℕ := (s.dev.pidx + c.rngsz - s.dev.cidx) % c.rngsz

theorem Inv.toFetch (h : Inv c subs s w) : s.toFetch c = w.told - w.fetched := by
  obtain ⟨-, hcidx, hpidx⟩ := h.device
  obtain ⟨hab, hbf, hft, htl⟩ := h.order
  have havail := h.avail
  rw [Sys.toFetch, hcidx, hpidx]
  obtain ⟨k, hk⟩ := Nat.exists_eq_add_of_le hft
  have hlt := Nat.mod_lt w.fetched h.rngsz_pos
  rw [hk, Nat.add_sub_cancel_left, Nat.add_sub_assoc hlt.le, Nat.mod_add_mod,
    show w.fetched + k + (c.rngsz - w.fetched % c.rngsz) =
      k + (w.fetched - w.fetched % c.rngsz) + c.rngsz by have := Nat.mod_le w.fetched c.rngsz; omega,
    Nat.add_mod_right, ← Nat.add_mod_mod, Nat.mod_eq_zero_of_dvd (Nat.dvd_sub_mod _), Nat.add_zero,
    Nat.mod_eq_of_lt (by omega)]

theorem Inv.mem_open (h : Inv c subs s w) {k : ℕ} (hk : k < s.toFetch c) :
    s.q.desc (Ring.slot c.rngsz s.dev.cidx k) ∈ w.pend.flatten ++ w.cur := by
  obtain ⟨hab, hbf, hft, htl⟩ := h.order
  rw [h.toFetch] at hk
  have hlt : w.fetched - w.acked + k < (w.all.drop w.acked).length := by
    rw [List.length_drop]
    omega
  have hget := h.ring.get _ hlt
  rw [← Nat.sub_add_comm (by omega), h.slot_cidx (by omega), List.getElem?_drop,
    show w.acked + (w.fetched + k - w.acked) = w.fetched + k by omega] at hget
  have hdone := h.length_done_le
  rw [Ring.slot, h.device.2.1, Nat.mod_add_mod]
  rw [History.all, List.append_assoc, List.getElem?_append_right (by omega)] at hget
  exact List.mem_of_getElem? hget

theorem Reachable.bytes_toFetch (hz : 0 < c.rngsz) (h : Reachable c subs s) {k : ℕ}
    (hk : k < s.toFetch c) : (s.q.desc (Ring.slot c.rngsz s.dev.cidx k)).bytes ⊆
      allBytes (s.q.pendList ++ s.q.workList) := by
  obtain ⟨w, h, -⟩ := h.ready hz
  refine List.Subset.trans (fun a ha ↦ ?_) h.bytes_open_prefix.subset
  exact List.mem_flatMap.2 ⟨_, h.mem_open hk, ha⟩

/-- The device fetches all descriptors that it is told of and reports it. -/
def Sys.drain (c : Conf) (s : Sys) : Sys :=
  (s.moves c (List.replicate c.rngsz .fetch)).move c .writeBack

/-- The device works off what it is told of, and the driver looks for completions and goes on with
the requests. -/
def Round (c : Conf) (s t : Sys) : Prop := ∃ env, ProcRequest c env ((s.drain c).cmplStatus c) t

inductive Rounds (c : Conf) : ℕ → Sys → Sys → Prop
  | zero (s : Sys) : Rounds c 0 s s
  | succ {n : ℕ} {s t u : Sys} : Round c s t → Rounds c n t u → Rounds c (n + 1) s u

/-- What is completed from `s` to `t` is handed to `fp_done` after what was before. -/
def Completes (s t : Sys) : Prop := ∃ cbs : List SgtReqCb, t.done = s.done ++ cbs.map reqDone

namespace Completes

variable {u : Sys}

theorem of_eq (h : t.done = s.done) : Completes s t := ⟨[], by rw [h, List.map_nil, List.append_nil]⟩

theorem trans (h : Completes s t) (h' : Completes t u) : Completes s u := by
  obtain ⟨cbs, h⟩ := h
  obtain ⟨cbs', h'⟩ := h'
  exact ⟨cbs ++ cbs', by rw [h', h, List.map_append, List.append_assoc]⟩

theorem move (s : Sys) (m : Move) : Completes s (s.move c m) := by
  refine of_eq ?_
  unfold Sys.move
  split
  · split <;> rfl
  · rfl

theorem moves (s : Sys) (ms : List Move) : Completes s (s.moves c ms) := by
  induction ms generalizing s with
  | nil => exact of_eq rfl
  | cons m ms ih => exact (move s m).trans (ih _)

theorem completeRequests (cr : ℕ) (pend : List SgtReqCb) :
    ∃ cbs : List SgtReqCb, (completeRequests cr pend).1 = cbs.map reqDone := by
  induction pend generalizing cr with
  | nil => exact ⟨[], rfl⟩
  | cons cb pend ih =>
    obtain ⟨cbs, hcbs⟩ := ih (cr - cb.descNr)
    rw [StH2c.completeRequests]
    split
    · split
      · exact ⟨[cb], rfl⟩
      · exact ⟨cb :: cbs, by rw [List.map_cons, ← hcbs]⟩
    · exact ⟨[], rfl⟩

theorem cmplStatus (s : Sys) : Completes s (s.cmplStatus c) := by
  unfold Sys.cmplStatus
  dsimp only
  split
  · exact of_eq rfl
  · split
    · exact of_eq rfl
    · obtain ⟨cbs, hcbs⟩ := completeRequests (s.q.credit +
        if s.dev.status < s.q.cidx then c.rngsz - s.q.cidx + s.dev.status
        else s.dev.status - s.q.cidx) s.q.pendList
      exact ⟨cbs, congrArg (s.done ++ ·) hcbs⟩

theorem wait (p : Proc) : Completes p.sys (p.wait c).sys := by
  rw [Proc.wait]
  split
  · exact of_eq rfl
  · exact moves _ _

theorem poll (p : Proc) : Completes p.sys (p.poll c).sys := by
  rw [Proc.poll]
  split
  · exact (wait p).trans (cmplStatus _)
  · exact wait p

theorem body (p : Proc) : Completes p.sys ((p.body c).elim id id).sys := by
  obtain ⟨p₁, hp₁, h₁⟩ : ∃ p₁, (if p.sys.q.avail = 0 then p.poll c else p) = p₁ ∧
      Completes p.sys p₁.sys := by
    split
    · exact ⟨_, rfl, poll p⟩
    · exact ⟨p, rfl, of_eq rfl⟩
  unfold Proc.body
  split
  · exact of_eq rfl
  rw [hp₁]
  dsimp only
  split
  · exact h₁
  split
  · exact h₁.trans (of_eq rfl)
  split
  · exact h₁.trans (of_eq rfl)
  · exact h₁.trans (of_eq rfl)

theorem finish (p : Proc) : Completes p.sys (p.finish c) := by
  rw [Proc.finish]
  split
  · exact (wait p).trans ((of_eq rfl).trans (poll _))
  · exact of_eq rfl

theorem proc {env : List (List Move)} (h : ProcRequest c env s t) : Completes s t := by
  obtain ⟨p, hends, rfl⟩ := h
  refine Completes.trans ?_ (finish p)
  refine hends.of_invariant (I := fun p ↦ Completes s p.sys) (P := fun p ↦ Completes s p.sys)
    (fun p r h hgo ↦ ?_) (fun p r h hleave ↦ ?_) (poll ⟨s, env, 0⟩)
  · have hbody := body (c := c) p
    rw [hgo] at hbody
    exact h.trans hbody
  · have hbody := body (c := c) p
    rw [hleave] at hbody
    exact h.trans hbody

theorem rounds {n : ℕ} (h : Rounds c n s t) : Completes s t := by
  induction h with
  | zero s => exact of_eq rfl
  | @succ n s t u hround _ ih =>
    obtain ⟨env, hp⟩ := hround
    exact (((moves s _).trans (move _ _)).trans ((cmplStatus _).trans (proc hp))).trans ih

end Completes

theorem Inv.idle (h : Inv c subs s w) (ha : w.all.length ≤ w.acked) :
    s.q.pendList = [] ∧ s.q.avail + 1 = c.rngsz := by
  have hcredit := h.credit
  have havail := h.avail
  obtain ⟨h₁, h₂, h₃, h₄⟩ := h.order
  refine ⟨?_, by omega⟩
  by_contra hne
  have hlt := h.credit_lt hne
  omega

theorem Ready.ends (h : Ready c subs s) (env : List (List Move)) :
    ∃ t, ProcRequest c env s t := by
  obtain ⟨r, hr⟩ := Loop.exists_ends (I := Proc.Ok c subs) (fun p ↦ p.sys.q.remaining)
    (fun p r h hgo ↦ by
      rcases h.body with ⟨r', hr', -⟩ | ⟨r', hr', hok, hlt⟩
      · cases hgo.symm.trans hr'
      · exact Sum.inr.inj (hgo.symm.trans hr') ▸ ⟨hok, hlt⟩) (ok_start env h)
  exact ⟨_, r, hr, rfl⟩

theorem Proc.Ok.remaining_le {p r : Proc} (h : p.Ok c subs)
    (hends : Loop.Ends (Proc.body c) p r) : r.sys.q.remaining ≤ p.sys.q.remaining := by
  refine hends.of_invariant
    (I := fun q ↦ q.Ok c subs ∧ q.sys.q.remaining ≤ p.sys.q.remaining)
    (P := fun q ↦ q.sys.q.remaining ≤ p.sys.q.remaining) (fun q r ⟨hq, hle⟩ hgo ↦ ?_)
    (fun q r ⟨hq, hle⟩ hleave ↦ ?_) ⟨h, le_rfl⟩
  · rcases hq.body with ⟨r', hr', -⟩ | ⟨r', hr', hok, hlt⟩
    · cases hgo.symm.trans hr'
    · exact Sum.inr.inj (hgo.symm.trans hr') ▸ ⟨hok, hlt.le.trans hle⟩
  · rcases hq.body with ⟨r', hr', -, hwork, -⟩ | ⟨r', hr', -⟩
    · obtain rfl := Sum.inl.inj (hleave.symm.trans hr')
      rw [Descq.remaining, hwork]
      exact hle
    · cases hleave.symm.trans hr'

theorem finish_workList (p : Proc) : (p.finish c).q.workList = p.sys.q.workList := by
  rw [Proc.finish]
  split
  · rw [Proc.poll_workList]
    change (p.wait c).sys.q.workList = _
    rw [Proc.wait_q]
  · rfl

theorem Reachable.moves (h : Reachable c subs s) (ms : List Move) :
    Reachable c subs (s.moves c ms) := by
  induction ms generalizing s with
  | nil => exact h
  | cons m ms ih => exact ih (h.move m)

theorem Reachable.drained (h : Reachable c subs s) :
    Reachable c subs ((s.drain c).cmplStatus c) := ((h.moves _).move _).service

theorem Rounds.reachable {n : ℕ} (hr : Rounds c n s t) (h : Reachable c subs s) :
    Reachable c subs t := by
  induction hr with
  | zero s => exact h
  | succ hround _ ih =>
    obtain ⟨env, hp⟩ := hround
    exact ih (h.drained.proc hp)

theorem Reachable.exists_rounds (hz : 0 < c.rngsz) (h : Reachable c subs s) (n : ℕ) :
    ∃ t, Rounds c n s t := by
  induction n generalizing s with
  | zero => exact ⟨s, .zero s⟩
  | succ n ih =>
    obtain ⟨t, ht⟩ := (h.drained.ready hz).ends []
    obtain ⟨u, hu⟩ := ih (h.drained.proc ht)
    exact ⟨u, .succ ⟨[], ht⟩ hu⟩

theorem Round.progress (hz : 1 < c.rngsz) (h : Ready c subs s) (hr : Round c s t) :
    Ready c subs t ∧ (t.q.workList = [] ∧ t.q.pendList = [] ∨ t.q.remaining < s.q.remaining) := by
  obtain ⟨env, hp⟩ := hr
  obtain ⟨w, h, hw⟩ := h
  obtain ⟨h₁, h₂, h₃, h₄⟩ := h.order
  have hfetch := h.fetches c.rngsz
  have havail := h.avail
  rw [Nat.min_eq_right (by omega)] at hfetch
  obtain ⟨w', hinv, hall, htold, hacked⟩ := hfetch.writeBack.cmplStatus
  have hready : Ready c subs ((s.drain c).cmplStatus c) := ⟨w', hinv, by rw [htold, hall]; exact hw⟩
  refine ⟨hready.proc hp, ?_⟩
  have hwork : ((s.drain c).cmplStatus c).q.workList = s.q.workList := by
    rw [cmplStatus_workList]
    exact congrArg Descq.workList (moves_q s _)
  obtain ⟨p, hends, rfl⟩ := hp
  have hok := ok_start env hready
  obtain ⟨w₀, hinv₀, hall₀, htold₀, hle₀⟩ :=
    Proc.inv_poll (p := ⟨(s.drain c).cmplStatus c, env, 0⟩) hinv
  have hacked' : w'.acked = w.told := hacked
  have hall' : w'.all = w.all := hall
  obtain ⟨hpend, hfree⟩ := hinv₀.idle (by rw [hall₀, hall']; omega)
  have hwork₀ := (Proc.poll_workList (c := c) ⟨(s.drain c).cmplStatus c, env, 0⟩).trans hwork
  have hrem : (Proc.poll c ⟨(s.drain c).cmplStatus c, env, 0⟩).sys.q.remaining = s.q.remaining := by
    rw [Descq.remaining, hwork₀]
    rfl
  rcases hok.body with ⟨r, hr, -, -, ⟨hnil, rfl⟩ | h0⟩ | ⟨r, hr, hok', hlt⟩
  · obtain rfl := hends.unique (Loop.ends_of_leaves hr)
    left
    have hnone : (Proc.poll c ⟨(s.drain c).cmplStatus c, env, 0⟩).descWritten = 0 :=
      Proc.poll_descWritten _
    rw [Proc.finish, if_neg (not_not.2 hnone)]
    exact ⟨hnil, hpend⟩
  · omega
  · right
    have hle := hok'.remaining_le ((Loop.ends_iff_of_goes hr).1 hends)
    rw [Descq.remaining, finish_workList]
    exact (hle.trans_lt hlt).trans_eq hrem

theorem Rounds.idle (hz : 1 < c.rngsz) {n : ℕ} (hr : Rounds c n s t) (h : Ready c subs s)
    (hn : s.q.remaining < n) : Ready c subs t ∧ t.q.workList = [] ∧ t.q.pendList = [] := by
  induction hr with
  | zero s => exact absurd hn (Nat.not_lt_zero _)
  | @succ n s t u hround hrest ih =>
    obtain ⟨ht, ⟨hwork, hpend⟩ | hlt⟩ := hround.progress hz h
    · rcases Nat.eq_zero_or_pos n with rfl | hpos
      · cases hrest
        exact ⟨ht, hwork, hpend⟩
      · refine ih ht ?_
        rwa [Descq.remaining, hwork]
    · exact ih ht (by omega)

/-- A call always ends, and when device and driver take turns, all requests are completed and all
their bytes sent after at most one turn more than there are bytes left and requests for none. -/
theorem Reachable.all_done (hz : 1 < c.rngsz) (h : Reachable c subs s) :
    (∀ env, ∃ t, ProcRequest c env s t) ∧
    ∀ n t, s.q.remaining < n → Rounds c n s t →
      t.done.map (fun r ↦ r.1.submitted) = subs ∧ bytes t.dev.wire = allBytes subs := by
  have hs := h.ready (by omega)
  refine ⟨fun env ↦ hs.ends env, fun n t hn hr ↦ ?_⟩
  obtain ⟨⟨w, ht, -⟩, hwork, hpend⟩ := hr.idle hz hs hn
  have hreqs := ht.reqs
  rw [hwork, hpend, List.append_nil, List.append_nil] at hreqs
  refine ⟨by rw [hreqs, List.map_map]; rfl, ht.wire_prefix.eq_of_length_le ?_⟩
  rw [hreqs, allBytes_submitted]
  exact ht.done_prefix.length_le

def turn (s : Sys) : Sys := procIn 3 [] ((s.drain smallRing).cmplStatus smallRing)

theorem round_turn (s : Sys) (h : (Loop.run (Proc.body smallRing) 3 (Proc.poll smallRing
    ⟨(s.drain smallRing).cmplStatus smallRing, [], 0⟩)).isSome = true) : Round smallRing s (turn s) :=
  ⟨[], procRequest_procIn h⟩

def bothDone : Sys := turn (turn (turn (turn tenStarted)))

theorem rounds_bothDone : Rounds smallRing 4 tenStarted bothDone :=
  .succ (round_turn _ (by decide)) <| .succ (round_turn _ (by decide)) <|
    .succ (round_turn _ (by decide)) <| .succ (round_turn _ (by decide)) (.zero _)

theorem Reachable.all_done_started :
    (∀ env, ∃ t, ProcRequest smallRing env tenStarted t) ∧
    bothDone.done.map (fun r ↦ r.1.submitted) = [tenBytes, noBytes] ∧
    bytes bothDone.dev.wire = allBytes [tenBytes, noBytes] := by
  obtain ⟨hends, hdone⟩ := Reachable.all_done (c := smallRing) (by decide) tenStarted_reachable
  exact ⟨hends, hdone 4 _ (by decide) rounds_bothDone⟩

end QdmaTrafficGen.StH2c
