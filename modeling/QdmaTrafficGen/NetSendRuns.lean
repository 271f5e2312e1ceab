import QdmaTrafficGen.NetSend

open Function

namespace QdmaTrafficGen.NetSend

open QdmaNet
open StH2c (Conf Completes Move ProcRequest SgtReqCb allBytes reqBytes reqDone sgBytes span)

variable {N : ℕ} {c : Conf} {kmalloc : ℕ → Option ℕ} {frames fs fs' : List (TxContext N)}
  {f : TxContext N} {calls : List Bool} {s : Sys N} {o : TxOutcome} {skb : Skb N} {running : Bool}
  {h2cQhndl qid k n n' : ℕ} {txCtx : Option ℕ} {pool pool' : Mempool} {ops ops' : List TxOp}

def mappings (f : TxContext N) : List (ℕ × ℕ) := entries f.req.sgl f.req.sgcnt

def parts (skb : Skb N) : List ℕ := (if skb.headlen > 0 then [skb.headlen] else []) ++ skb.frags

/-- A context as it waits for its completion: the request has the parts of the buffer. -/
structure Kept (f : TxContext N) : Prop where
  skb : ∃ skb, f.skb = some skb ∧ (mappings f).map Prod.snd = parts skb
  q : f.q.isSome
  mapped : ∀ m ∈ mappings f, m.1 ≠ 0
  wellFormed : (reqCb f).WellFormed

/-- Every mapping is undone and every context given back but those of `fs`, and so many buffers are
freed that `n` of them are, with those of `fs`. -/
structure Account (ops : List TxOp) (fs : List (TxContext N)) (n : ℕ) : Prop where
  maps_perm : (maps ops).Perm (unmaps ops ++ fs.flatMap mappings)
  allocs_perm : (mempoolAllocs ops).Perm (mempoolFrees ops ++ fs.map TxContext.addr)
  freed : ops.count .kfreeSkb + fs.length = n

theorem perm_of_spent {α : Type*} {m u x y z a b : List α} (h : m.Perm (u ++ x))
    (hab : (a ++ x).Perm (b ++ y)) (hz : z.Perm b) : (m ++ a).Perm ((u ++ z) ++ y) := by
  refine (h.append_right a).trans ?_
  rw [List.append_assoc, List.append_assoc]
  refine List.Perm.append_left u ?_
  exact (List.perm_append_comm.trans hab).trans (hz.symm.append_right y)

theorem Account.spend {m u : List (ℕ × ℕ)} {a b : List ℕ} {k : ℕ} (h : Account ops fs n)
    (hs : Spent ops' m u a b k)
    (hm : (m ++ fs.flatMap mappings).Perm (u ++ fs'.flatMap mappings))
    (ha : (a ++ fs.map TxContext.addr).Perm (b ++ fs'.map TxContext.addr))
    (hk : n + k + fs'.length = n' + fs.length) : Account (ops ++ ops') fs' n' := by
  have hfreed := h.freed
  refine ⟨?_, ?_, ?_⟩
  · rw [maps, unmaps, List.filterMap_append, List.filterMap_append]
    refine perm_of_spent h.maps_perm ?_ hs.unmaps_perm
    exact (List.Perm.of_eq (congrArg (· ++ _) hs.maps_eq)).trans hm
  · rw [mempoolAllocs, mempoolFrees, List.filterMap_append, List.filterMap_append]
    refine perm_of_spent h.allocs_perm ?_ (.of_eq hs.frees_eq)
    exact (List.Perm.of_eq (congrArg (· ++ _) hs.allocs_eq)).trans ha
  · rw [List.count_append, hs.count_eq]
    omega

theorem pieces_snd : (pieces o skb).map Prod.snd = parts skb := by
  rw [pieces, parts, List.map_append, fragPieces_snd]
  split <;> rfl

theorem parts_pos (h : Sendable skb) : ∀ len ∈ parts skb, 0 < len := by
  intro len hlen
  rw [parts, List.mem_append] at hlen
  rcases hlen with hlen | hlen
  · split at hlen
    case isTrue hpos => rwa [List.mem_singleton.1 hlen]
    case isFalse => cases hlen
  · exact h.frags_pos len hlen

theorem mapped_eq (h : Sendable skb) (hsum : ((mapped o skb).map Prod.snd).sum = skb.len) :
    mapped o skb = pieces o skb := by
  obtain ⟨rest, hrest⟩ := List.takeWhile_prefix mappingOk (l := pieces o skb)
  have hall : ((pieces o skb).map Prod.snd).sum = skb.len := pieces_sum
  have hmapped : mapped o skb ++ rest = pieces o skb := hrest
  rw [← hmapped, List.map_append, List.sum_append, hsum] at hall
  rcases rest with _ | ⟨m, rest⟩
  · rw [← hmapped, List.append_nil]
  · have hmem : m.2 ∈ parts skb := by
      rw [← pieces_snd (o := o), ← hmapped]
      exact List.mem_map_of_mem (List.mem_append_right _ List.mem_cons_self)
    have hpos := parts_pos h _ hmem
    rw [List.map_cons, List.sum_cons] at hall
    omega

theorem mem_mappings {i : ℕ} (hi : i < f.req.sgcnt) :
    ((f.req.sgl i).dmaAddr, (f.req.sgl i).len) ∈ mappings f :=
  List.mem_map.2 ⟨i, List.mem_range.2 hi, rfl⟩

theorem kept_of_chained {req : Request} (h : Sendable skb) (hbus : ∀ m ∈ mapped o skb, m.1 ≠ 0)
    (hc : Chained skb req) (he : entries req.sgl req.sgcnt = mapped o skb) (a : ℕ) :
    Kept (⟨a, req, some skb, some qid⟩ : TxContext N) := by
  have hsum := hc.sum_len
  have hmap : (List.range req.sgcnt).map (fun j ↦ (req.sgl j).len) =
      (mapped o skb).map Prod.snd := by
    rw [← he, entries, List.map_map]
    rfl
  rw [hmap] at hsum
  have hparts : (mapped o skb).map Prod.snd = parts skb := by
    rw [mapped_eq h hsum, pieces_snd]
  have hlen : 0 < req.count := hc.count_eq ▸ h.len_pos
  have hcount : req.count = ((List.range req.sgcnt).map fun j ↦ (req.sgl j).len).sum :=
    hc.count_eq.trans hc.sum_len.symm
  refine ⟨⟨skb, rfl, (congrArg (List.map Prod.snd) he).trans hparts⟩, rfl,
    fun m hm ↦ hbus m (he ▸ hm), ?_, ?_, hcount, ?_, rfl, rfl⟩
  · rcases Nat.eq_zero_or_pos req.sgcnt with h0 | hpos
    · rw [hcount, h0] at hlen
      exact absurd hlen (Nat.lt_irrefl 0)
    · exact hpos
  · intro _ i hi
    have hmem := List.mem_map_of_mem (f := Prod.snd)
      (mem_mappings (f := (⟨a, req, some skb, some qid⟩ : TxContext N)) hi)
    rw [mappings, he, hparts] at hmem
    exact parts_pos h _ hmem
  · exact hc.count_eq ▸ h.len_lt

/-- A call either drops the frame, whose context goes back to the pool if there was one, or leaves its
context to the queue. -/
inductive Sent (running : Bool) (txCtx : Option ℕ) (pool pool' : Mempool) :
    TxResult N → Bool → Prop
  | dropped {r : TxResult N} {drop : Bool} {M : List (ℕ × ℕ)} {A : List ℕ}
      (hnone : r.pending = none) (hdrop : drop = running) (hs : Spent r.ops M M A A 1)
      (hpool : r.pool = pool ∨ txCtx = none ∧ r.pool = pool' ∨
        ∃ a, txCtx = some a ∧ r.pool = pool'.free (some a)) : Sent running txCtx pool pool' r drop
  | kept {r : TxResult N} {f : TxContext N} (hsome : r.pending = some f) (hrun : running = true)
      (hctx : txCtx = some f.addr) (hpool : r.pool = pool') (hf : Kept f)
      (hs : Spent r.ops (mappings f) [] [f.addr] [] 0) : Sent running txCtx pool pool' r false

theorem filter_nonzero {M : List (ℕ × ℕ)} (h : ∀ m ∈ M, m.1 ≠ 0) : M.filter nonzero = M :=
  List.filter_eq_self.2 fun m hm ↦ by simp [nonzero, h m hm]

theorem enqueue_cases (hskb : Sendable skb) (hbus : ∀ m ∈ mapped o skb, m.1 ≠ 0) (qid ctx : ℕ)
    (pool : Mempool) : ∃ r, txEnqueueSkb o skb qid (some ctx) pool = r ∧
      (r.rv ≠ 0 ∧ r.pending = none ∧ r.pool = pool.free (some ctx) ∧
          Spent r.ops (mapped o skb) (mapped o skb) [ctx] [ctx] 0 ∨
        r.rv = 0 ∧ ∃ f, r.pending = some f ∧ f.addr = ctx ∧ r.pool = pool ∧ Kept f ∧
          Spent r.ops (mappings f) [] [ctx] [] 0) := by
  have hfilter := filter_nonzero hbus
  rw [txEnqueueSkb]
  obtain ⟨req, hchain, hent, heq⟩ | ⟨ops, heq, hops⟩ := buildReq_cases o skb
  · have hmaps := (spent_alloc ctx).append (spent_maps (mapped o skb))
    rw [heq]
    dsimp only
    by_cases hsub : o.requestSubmit < 0
    · have hall := (hmaps.append (spent_unmaps (mapped o skb))).append (spent_free ctx)
      rw [if_pos hsub, unmapAll_eq, hent, hfilter]
      exact ⟨_, rfl, .inl ⟨hsub.ne, rfl, rfl, by simpa using hall⟩⟩
    · rw [if_neg hsub]
      refine ⟨_, rfl, .inr ⟨rfl, _, rfl, rfl, rfl, kept_of_chained hskb hbus hchain hent ctx, ?_⟩⟩
      rw [mappings, hent]
      simpa using hmaps
  · have hall := ((spent_alloc ctx).append hops).append (spent_free ctx)
    rw [hfilter] at hall
    rw [heq]
    exact ⟨_, rfl, .inl ⟨show -ENOMEM ≠ 0 by decide, rfl, rfl, by simpa using hall⟩⟩

theorem xmitFrame_sent (hskb : Sendable skb) (hbus : ∀ m ∈ mapped o skb, m.1 ≠ 0) (running : Bool)
    (h2cQhndl qid : ℕ) (txCtx : Option ℕ) (pool pool' : Mempool) :
    Sent running txCtx pool pool' (xmitFrame o skb running h2cQhndl qid txCtx pool pool')
      (Sys.dropped o skb running h2cQhndl qid txCtx pool') := by
  unfold xmitFrame Sys.dropped
  cases running with
  | false => exact .dropped rfl rfl spent_kfree (.inl rfl)
  | true =>
    simp only [Bool.not_true, Bool.false_eq_true, if_false]
    by_cases hq : h2cQhndl = queueIdxInvalid
    · rw [if_pos hq, if_pos hq]
      exact .dropped rfl rfl spent_kfree (.inl rfl)
    rw [if_neg hq, if_neg hq]
    rcases txCtx with _ | ctx
    · exact .dropped rfl rfl spent_kfree (.inr (.inl ⟨rfl, rfl⟩))
    obtain ⟨r, hr, ⟨hrv, hnone, hpool, hs⟩ | ⟨hrv, f, hsome, rfl, hpool, hf, hs⟩⟩ :=
      enqueue_cases hskb hbus qid ctx pool'
    · simp only [hr, if_pos hrv, decide_eq_true hrv]
      have hall := hs.append spent_kfree
      simp only [List.append_nil, Nat.zero_add] at hall
      exact .dropped hnone rfl hall (.inr (.inr ⟨ctx, rfl, hpool⟩))
    · simp only [hr, hrv]
      exact .kept hsome rfl rfl hpool hf hs

/-- What holds of the driver after `k` of the frames have been completed. -/
structure Held (kmalloc : ℕ → Option ℕ) (frames : List (TxContext N)) (k : ℕ) (calls : List Bool)
    (s : Sys N) : Prop where
  live : ∃ live, Mempool.Reachable kmalloc {1} s.pool live ∧
    live.Perm ((frames.drop k).map fun f ↦ (f.addr, 1))
  ctx : ∀ f ∈ frames.drop k, s.ctx f.addr = some f
  kept : ∀ f ∈ frames, Kept f
  account : Account s.ops (frames.drop k) calls.length
  sent : s.stats.txPackets = k ∧ s.stats.txErrors = 0 ∧
    s.stats.txBytes = ((frames.take k).map fun f ↦ f.req.count).sum
  dropped : s.stats.txDropped + frames.length = calls.count true

theorem txCompleteCb_kept (h : Kept f) (pool : Mempool) : ∃ ops,
    txCompleteCb pool (some f) = (0, pool.free (some f.addr), ops) ∧
      Spent ops [] (mappings f) [] [f.addr] 1 := by
  obtain ⟨addr, req, skb, q⟩ := f
  obtain ⟨⟨skb', hskb, -⟩, hq, hbus, -⟩ := h
  obtain rfl : skb = some skb' := hskb
  obtain ⟨qid, rfl⟩ := Option.isSome_iff_exists.1 hq
  refine ⟨_, rfl, ?_⟩
  have hs := spent_complete skb' qid pool addr req
  rwa [filter_nonzero (M := entries req.sgl req.sgcnt) hbus] at hs

theorem Held.complete (h : Held kmalloc frames k calls s) {cb : SgtReqCb} {rest : List (TxContext N)}
    (hfs : frames.drop k = f :: rest) (hcb : cb.submitted = reqCb f) (hdone : (reqDone cb).2 = 0) :
    Held kmalloc frames (k + 1) calls (s.complete (reqDone cb)) := by
  have hid : cb.id = f.addr := congrArg SgtReqCb.id hcb
  have hreq : cb.req = f.req := congrArg SgtReqCb.req hcb
  have hoff : cb.offset = f.req.count := by
    by_contra hne
    rw [reqDone, if_pos (hreq ▸ hne)] at hdone
    exact absurd hdone (show -EINVAL ≠ 0 by decide)
  have hrest : frames.drop (k + 1) = rest := by
    rw [← List.drop_drop, hfs, List.drop_one, List.tail_cons]
  have hmem : f ∈ frames := List.mem_of_mem_drop (hfs ▸ List.mem_cons_self)
  have hctx := h.ctx f (hfs ▸ List.mem_cons_self)
  obtain ⟨ops, hcomplete, hs⟩ := txCompleteCb_kept (h.kept f hmem) s.pool
  obtain ⟨hpackets, herrors, hbytes⟩ := h.sent
  have hstep : s.complete (reqDone cb) = { s with
      pool := s.pool.free (some f.addr)
      ops := s.ops ++ ops
      stats := { s.stats with
        txPackets := s.stats.txPackets + 1
        txBytes := s.stats.txBytes + f.req.count } } := by
    have hcall : txCompleteCb s.pool (s.ctx (reqDone cb).1.id) =
        (0, s.pool.free (some f.addr), ops) := by
      rw [reqDone, hid, hctx, hcomplete]
    rw [Sys.complete, hcall, hdone, ← hoff]
    rfl
  rw [hstep]
  refine ⟨?_, ?_, h.kept, ?_, ⟨congrArg (· + 1) hpackets, herrors, ?_⟩, h.dropped⟩
  · obtain ⟨live, hlive, hperm⟩ := h.live
    rw [hfs, List.map_cons] at hperm
    refine ⟨_, hlive.free (hperm.mem_iff.2 List.mem_cons_self), ?_⟩
    have herase := hperm.erase (f.addr, 1)
    rwa [List.erase_cons_head, ← hrest] at herase
  · exact fun g hg ↦ h.ctx g (hfs ▸ List.mem_cons_of_mem f (hrest ▸ hg))
  · rw [hrest]
    have hacc := h.account
    rw [hfs] at hacc
    refine hacc.spend hs (.refl _) (.refl _) ?_
    rw [List.length_cons]
    omega
  · have hget : frames[k]? = some f := by
      rw [← Nat.add_zero k, ← List.getElem?_drop, hfs]
      rfl
    rw [List.take_add_one, hget, List.map_append, List.sum_append, ← hbytes]
    rfl

theorem Held.completes (h : Held kmalloc frames k calls s) {cbs : List SgtReqCb}
    (hcbs : cbs.map SgtReqCb.submitted <+: (frames.drop k).map reqCb)
    (hdone : ∀ cb ∈ cbs, (reqDone cb).2 = 0) :
    Held kmalloc frames (k + cbs.length) calls ((cbs.map reqDone).foldl Sys.complete s) := by
  induction cbs generalizing k s with
  | nil => exact h
  | cons cb cbs ih =>
    rcases hfs : frames.drop k with _ | ⟨f, rest⟩
    · rw [hfs] at hcbs
      exact absurd (List.prefix_nil.1 hcbs) (List.cons_ne_nil _ _)
    rw [hfs, List.map_cons, List.map_cons, List.cons_prefix_cons] at hcbs
    have hrest : frames.drop (k + 1) = rest := by
      rw [← List.drop_drop, hfs, List.drop_one, List.tail_cons]
    have hstep := h.complete hfs hcbs.1 (hdone cb List.mem_cons_self)
    have hall := ih hstep (hrest.symm ▸ hcbs.2) fun x hx ↦ hdone x (List.mem_cons_of_mem cb hx)
    rwa [Nat.add_assoc, Nat.add_comm 1] at hall

theorem Held.drop (h : Held kmalloc frames k calls s) {live : List (ℕ × ℕ)}
    (hlive : Mempool.Reachable kmalloc {1} pool live)
    (hperm : live.Perm ((frames.drop k).map fun f ↦ (f.addr, 1))) {M : List (ℕ × ℕ)} {A : List ℕ}
    (hs : Spent ops M M A A 1) (running : Bool) :
    Held kmalloc frames k (calls ++ [running]) { s with
      pool := pool
      ops := s.ops ++ ops
      stats := { s.stats with txDropped := s.stats.txDropped + if running then 1 else 0 } } := by
  refine ⟨⟨live, hlive, hperm⟩, h.ctx, h.kept, ?_, h.sent, ?_⟩
  · exact h.account.spend hs (.refl _) (.refl _) (by rw [List.length_append, List.length_singleton])
  · have hdropped := h.dropped
    have hcount : (calls ++ [running]).count true = calls.count true + if running then 1 else 0 := by
      rw [List.count_append]
      cases running <;> rfl
    dsimp only
    rw [hcount, ← hdropped]
    omega

/-- A frame that is left to the queue: its context lies in a block of its own. -/
theorem Held.keep (hk : Mempool.KmallocLimited kmalloc) (h : Held kmalloc frames k calls s)
    (hle : k ≤ frames.length) {live : List (ℕ × ℕ)}
    (hlive : Mempool.Reachable kmalloc {1} pool ((f.addr, 1) :: live))
    (hperm : live.Perm ((frames.drop k).map fun f ↦ (f.addr, 1))) (hf : Kept f)
    (hs : Spent ops (mappings f) [] [f.addr] [] 0) (q : StH2c.Sys) :
    Held kmalloc (frames ++ [f]) k (calls ++ [true]) { s with
      pool := pool
      ops := s.ops ++ ops
      ctx := update s.ctx f.addr (some f)
      h2c := q } := by
  have hdrop : (frames ++ [f]).drop k = frames.drop k ++ [f] := List.drop_append_of_le_length hle
  have hnew : (f.addr, 1) ∉ live := (List.nodup_cons.1 (hlive.tracks hk).nodup).1
  refine ⟨⟨_, hlive, ?_⟩, fun g hg ↦ ?_, fun g hg ↦ ?_, ?_, ?_, ?_⟩
  · rw [hdrop, List.map_append]
    exact (hperm.cons _).trans (List.perm_append_singleton _ _).symm
  · rw [hdrop, List.mem_append, List.mem_singleton] at hg
    change update s.ctx f.addr (some f) g.addr = some g
    rcases hg with hg | rfl
    · rw [update_of_ne, h.ctx g hg]
      intro heq
      exact hnew (hperm.mem_iff.2 (heq ▸ List.mem_map_of_mem (f := fun f ↦ (f.addr, 1)) hg))
    · exact update_self _ _ _
  · rcases List.mem_append.1 hg with hg | hg
    · exact h.kept g hg
    · exact List.mem_singleton.1 hg ▸ hf
  · rw [hdrop]
    refine h.account.spend hs ?_ ?_ ?_
    · rw [List.flatMap_append, List.flatMap_singleton]
      exact List.perm_append_comm
    · rw [List.map_append]
      exact List.perm_append_comm
    · simp only [List.length_append, List.length_singleton]
      omega
  · rw [List.take_append_of_le_length hle]
    exact h.sent
  · have hdropped := h.dropped
    dsimp only
    rw [List.count_append, List.count_singleton_self, List.length_append, List.length_singleton,
      ← hdropped, Nat.add_assoc]

theorem Held.xmit (hk : Mempool.KmallocLimited kmalloc) (h : Held kmalloc frames k calls s)
    (hle : k ≤ frames.length) (hskb : Sendable skb) (hbus : ∀ m ∈ mapped o skb, m.1 ≠ 0)
    (running : Bool) (h2cQhndl qid : ℕ) (ha : s.pool.Allocs 1 txCtx pool) :
    Held kmalloc (frames ++ (xmitFrame o skb running h2cQhndl qid txCtx s.pool pool).pending.toList)
      k (calls ++ [running]) (s.xmit o skb running h2cQhndl qid txCtx pool) := by
  obtain ⟨live, hlive, hperm⟩ := h.live
  have halloc := hlive.alloc (Set.mem_singleton 1) (by decide) ha
  have hsent := xmitFrame_sent hskb hbus running h2cQhndl qid txCtx s.pool pool
  unfold Sys.xmit
  dsimp only
  revert hsent
  generalize xmitFrame o skb running h2cQhndl qid txCtx s.pool pool = r
  generalize Sys.dropped o skb running h2cQhndl qid txCtx pool = drop
  intro hsent
  cases hsent with
  | dropped hnone hdrop hs hpool =>
    subst hdrop
    rw [hnone, Option.toList_none, List.append_nil]
    refine h.drop ?_ hperm hs drop
    rcases hpool with hpool | ⟨rfl, hpool⟩ | ⟨a, rfl, hpool⟩
    · exact hpool.symm ▸ hlive
    · exact hpool.symm ▸ halloc
    · have hfree := halloc.free (show (a, 1) ∈ (a, 1) :: live from List.mem_cons_self)
      rw [show (Option.map (·, 1) (some a)).toList ++ live = (a, 1) :: live from rfl,
        List.erase_cons_head] at hfree
      exact hpool.symm ▸ hfree
  | @kept f hsome hrun hctx hpool hf hs =>
    subst hctx hrun
    have hlive' : Mempool.Reachable kmalloc {1} r.pool ((f.addr, 1) :: live) := hpool.symm ▸ halloc
    rw [hsome, Option.toList_some]
    exact h.keep hk hle hlive' hperm hf hs _

theorem Held.driven (hz : 0 < c.rngsz) {t : StH2c.Sys} (h : Held kmalloc frames s.h2c.done.length calls s)
    (hc : Completes s.h2c t) (ht : StH2c.Reachable c (frames.map reqCb) t) :
    Held kmalloc frames t.done.length calls (s.driven t) := by
  obtain ⟨cbs, hcbs⟩ := hc
  obtain ⟨hreqs, herr, -⟩ := ht.in_order hz
  have hpre : cbs.map SgtReqCb.submitted <+: (frames.drop s.h2c.done.length).map reqCb := by
    refine ⟨(t.q.pendList ++ t.q.workList).map SgtReqCb.submitted, ?_⟩
    have hfst : (cbs.map reqDone).map Prod.fst = cbs := by
      rw [List.map_map]
      exact List.map_id cbs
    rw [List.map_drop, hreqs, hcbs]
    simp only [List.map_append, hfst, List.append_assoc]
    rw [List.drop_left' (by rw [List.length_map, List.length_map])]
  have hall := Held.completes (s := { s with h2c := t }) ⟨h.live, h.ctx, h.kept, h.account, h.sent,
    h.dropped⟩ hpre fun cb hcb ↦ herr _ (hcbs ▸ List.mem_append_right _ (List.mem_map_of_mem hcb))
  rw [Sys.driven, hcbs, List.drop_left, List.length_append, List.length_map]
  exact hall

theorem xmit_h2c (s : Sys N) (o : TxOutcome) (skb : Skb N) (running : Bool) (h2cQhndl qid : ℕ)
    (txCtx : Option ℕ) (pool : Mempool) :
    (s.xmit o skb running h2cQhndl qid txCtx pool).h2c =
      match (xmitFrame o skb running h2cQhndl qid txCtx s.pool pool).pending with
      | none => s.h2c
      | some f => { s.h2c with
          q := { s.h2c.q with workList := s.h2c.q.workList ++ [reqCb f] } } := by
  rw [Sys.xmit]
  dsimp only
  generalize (xmitFrame o skb running h2cQhndl qid txCtx s.pool pool).pending = pending
  cases pending <;> rfl

theorem completes_foldl_h2c (s : Sys N) (rs : List (SgtReqCb × ℤ)) :
    (rs.foldl Sys.complete s).h2c = s.h2c := by
  induction rs generalizing s with
  | nil => rfl
  | cons r rs ih => exact ih (s.complete r)

theorem driven_h2c (s : Sys N) (t : StH2c.Sys) : (s.driven t).h2c = t := completes_foldl_h2c _ _

namespace Reachable

theorem held (hz : 0 < c.rngsz) (hk : Mempool.KmallocLimited kmalloc)
    (h : Reachable c kmalloc frames calls s) :
    StH2c.Reachable c (frames.map reqCb) s.h2c ∧ Held kmalloc frames s.h2c.done.length calls s := by
  induction h with
  | init desc he he' hm h =>
    refine ⟨.init desc, ⟨⟨[], .create he he' hm h, .refl _⟩, fun f hf ↦ ?_, fun f hf ↦ ?_,
      ⟨.refl _, .refl _, rfl⟩, ⟨rfl, rfl, rfl⟩, rfl⟩⟩
    · cases hf
    · cases hf
  | @xmit frames calls s txCtx pool h o skb hskb hbus running h2cQhndl qid ha ih =>
    obtain ⟨hr, hheld⟩ := ih
    have hlen : s.h2c.done.length ≤ frames.length := by
      have hreqs := congrArg List.length (hr.in_order hz).1
      simp only [List.length_map, List.length_append] at hreqs
      omega
    have hnew := hheld.xmit hk hlen hskb hbus running h2cQhndl qid ha
    have hkept := hnew.kept
    rw [xmit_h2c]
    rcases hp : (xmitFrame o skb running h2cQhndl qid txCtx s.pool pool).pending with _ | f
    · rw [hp] at hnew
      rw [Option.toList_none, List.append_nil] at hnew ⊢
      exact ⟨hr, hnew⟩
    · rw [hp] at hnew hkept
      refine ⟨?_, hnew⟩
      rw [Option.toList_some, List.map_append]
      exact hr.submit (hkept f (List.mem_append_right _ List.mem_cons_self)).wellFormed
  | @move frames calls s h m ih =>
    rw [driven_h2c]
    exact ⟨ih.1.move m, ih.2.driven hz (.move _ m) (ih.1.move m)⟩
  | @proc frames calls s t env h hp ih =>
    rw [driven_h2c]
    exact ⟨ih.1.proc hp, ih.2.driven hz (.proc hp) (ih.1.proc hp)⟩
  | @service frames calls s h ih =>
    rw [driven_h2c]
    exact ⟨ih.1.service, ih.2.driven hz (.cmplStatus _) ih.1.service⟩

end Reachable

end QdmaTrafficGen.NetSend
