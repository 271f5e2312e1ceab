import QdmaTrafficGen.NetTx

open Function

namespace QdmaTrafficGen.QdmaNet

variable {N : ℕ} {o : TxOutcome} {skb : Skb N} {sgl : ℕ → SwSg} {n i total : ℕ} {M : List (ℕ × ℕ)}
  {ops ops' : List TxOp}

def maps (ops : List TxOp) : List (ℕ × ℕ) :=
  ops.filterMap fun
    | .dmaMap addr len => some (addr, len)
    | _ => none

def unmaps (ops : List TxOp) : List (ℕ × ℕ) :=
  ops.filterMap fun
    | .dmaUnmap addr len => some (addr, len)
    | _ => none

def mempoolAllocs (ops : List TxOp) : List ℕ :=
  ops.filterMap fun
    | .mempoolAlloc ctx => some ctx
    | _ => none

def mempoolFrees (ops : List TxOp) : List ℕ :=
  ops.filterMap fun
    | .mempoolFree ctx => some ctx
    | _ => none

def entries (sgl : ℕ → SwSg) (n : ℕ) : List (ℕ × ℕ) :=
  (List.range n).map fun j ↦ ((sgl j).dmaAddr, (sgl j).len)

def nonzero (m : ℕ × ℕ) : Bool := m.1 ≠ 0

theorem entries_succ :
    entries sgl (n + 1) = entries sgl n ++ [((sgl n).dmaAddr, (sgl n).len)] := by
  rw [entries, List.range_succ, List.map_append]
  rfl

theorem entries_update {e : SwSg} (h : n ≤ i) : entries (update sgl i e) n = entries sgl n := by
  apply List.map_congr_left
  intro j hj
  rw [update_of_ne]
  have := List.mem_range.mp hj
  omega

theorem unmapEntry_eq (e : SwSg) : unmapEntry e =
    ([(e.dmaAddr, e.len)].filter nonzero).map fun m ↦ .dmaUnmap m.1 m.2 := by
  unfold unmapEntry
  split
  case isTrue h => simp [nonzero, h]
  case isFalse h => simp [nonzero, not_not.mp h]

theorem unwind_perm :
    (unwind sgl n).Perm (((entries sgl n).filter nonzero).map fun m ↦ .dmaUnmap m.1 m.2) := by
  induction n with
  | zero => exact List.Perm.refl []
  | succ n ih =>
    rw [unwind, unmapEntry_eq, entries_succ, List.filter_append, List.map_append]
    exact List.perm_append_comm.trans (ih.append_right _)

theorem unmapAll_eq :
    unmapAll sgl n = ((entries sgl n).filter nonzero).map fun m ↦ .dmaUnmap m.1 m.2 := by
  induction n with
  | zero => rfl
  | succ n ih =>
    rw [entries_succ, List.filter_append, List.map_append, ← ih, ← unmapEntry_eq, unmapAll,
      List.range_succ, List.flatMap_append]
    simp [unmapAll]

/-- The first `n` entries of a list that is to have `total` stand for the mappings `M` and are
linked up. -/
structure Filled (sgl : ℕ → SwSg) (n total : ℕ) (M : List (ℕ × ℕ)) : Prop where
  entries_eq : entries sgl n = M
  linked : ∀ j < n, (sgl j).next = if j + 1 < total then some (j + 1) else none

theorem Filled.add {addr len : ℕ} {next : Option ℕ} (h : Filled sgl n total M)
    (hnext : next = if n + 1 < total then some (n + 1) else none) :
    Filled (update sgl n ⟨next, len, addr⟩) (n + 1) total (M ++ [(addr, len)]) := by
  constructor
  · rw [entries_succ, entries_update le_rfl, h.entries_eq, update_self]
  · intro j hj
    rcases Nat.lt_succ_iff_lt_or_eq.mp hj with hj | rfl
    · rw [update_of_ne (by omega), h.linked j hj]
    · rw [update_self, hnext]

/-- The fragments from fragment `i` on, by the address that mapping them gives and their length. -/
def fragPieces (o : TxOutcome) : ℕ → List ℕ → List (ℕ × ℕ)
  | _, [] => []
  | i, len :: rest => (o.skbFragDmaMap i, len) :: fragPieces o (i + 1) rest

def pieces (o : TxOutcome) (skb : Skb N) : List (ℕ × ℕ) :=
  (if skb.headlen > 0 then [(o.dmaMapSingle, skb.headlen)] else []) ++ fragPieces o 0 skb.frags

def mappingOk (m : ℕ × ℕ) : Bool := !dmaMappingError m.1

/-- The mappings that succeed, up to the first that does not. -/
def mapped (o : TxOutcome) (skb : Skb N) : List (ℕ × ℕ) := (pieces o skb).takeWhile mappingOk

/-- What mapping leads to: a list filled with all mappings, or an error after those made before it
have been unmapped again. -/
def Maps (done pieces M : List (ℕ × ℕ)) (total : ℕ)
    (r : Except ℤ (ℕ × (ℕ → SwSg)) × List TxOp) : Prop :=
  (done = pieces ∧ ∃ sgl, Filled sgl total total (M ++ done) ∧ r.1 = .ok (total, sgl) ∧
      r.2 = done.map fun m ↦ .dmaMap m.1 m.2) ∨
    r.1 = .error (-ENOMEM) ∧ ∃ undone, r.2 = (done.map fun m ↦ .dmaMap m.1 m.2) ++ undone ∧
      undone.Perm (((M ++ done).filter nonzero).map fun m ↦ .dmaUnmap m.1 m.2)

theorem Maps.cons {done pieces : List (ℕ × ℕ)} {addr len : ℕ}
    {r : Except ℤ (ℕ × (ℕ → SwSg)) × List TxOp} (h : Maps done pieces (M ++ [(addr, len)]) total r) :
    Maps ((addr, len) :: done) ((addr, len) :: pieces) M total (r.1, .dmaMap addr len :: r.2) := by
  unfold Maps at h ⊢
  rw [List.append_cons]
  obtain ⟨hall, sgl, hf, h1, h2⟩ | ⟨h1, undone, h2, hp⟩ := h
  · exact .inl ⟨by rw [hall], sgl, hf, h1, by rw [h2]; rfl⟩
  · exact .inr ⟨h1, undone, by rw [h2]; rfl, hp⟩

theorem mapFrags_maps {nrFrags : ℕ} {frags : List ℕ} (h : Filled sgl n total M)
    (hi : i + frags.length = nrFrags) (hn : n + frags.length = total) :
    Maps ((fragPieces o i frags).takeWhile mappingOk) (fragPieces o i frags) M total
      (mapFrags o nrFrags frags i n sgl) := by
  induction frags generalizing sgl n M i with
  | nil =>
    obtain rfl : n = total := hn
    exact .inl ⟨rfl, sgl, by simpa [fragPieces] using h, rfl, rfl⟩
  | cons len rest ih =>
    rw [List.length_cons] at hi hn
    rw [fragPieces, mapFrags]
    dsimp only
    by_cases herr : dmaMappingError (o.skbFragDmaMap i) = true
    · rw [if_pos herr, List.takeWhile_cons_of_neg (by simp [mappingOk, herr])]
      refine .inr ⟨rfl, _, rfl, ?_⟩
      rw [List.append_nil, ← h.entries_eq]
      exact unwind_perm
    · rw [if_neg herr, List.takeWhile_cons_of_pos (by simp [mappingOk, herr])]
      have hnext : (if i + 1 < nrFrags then some (n + 1) else none) =
          if n + 1 < total then some (n + 1) else none := by
        simp only [show i + 1 < nrFrags ↔ n + 1 < total by omega]
      exact (ih (h.add hnext) (by omega) (by omega)).cons

theorem fragPieces_length (frags : List ℕ) : (fragPieces o i frags).length = frags.length := by
  induction frags generalizing i with
  | nil => rfl
  | cons len rest ih => rw [fragPieces, List.length_cons, List.length_cons, ih]

theorem fragPieces_snd (frags : List ℕ) : (fragPieces o i frags).map Prod.snd = frags := by
  induction frags generalizing i with
  | nil => rfl
  | cons len rest ih => rw [fragPieces, List.map_cons, ih]

theorem pieces_sum : ((pieces o skb).map Prod.snd).sum = skb.len := by
  rw [pieces, List.map_append, List.sum_append, fragPieces_snd, Skb.len]
  split
  case isTrue => simp
  case isFalse h => simp [Nat.eq_zero_of_not_pos h]

theorem pieces_length : (pieces o skb).length ≤ N + 1 := by
  have hle := skb.frags_le
  rw [pieces, List.length_append, fragPieces_length]
  split
  case isTrue =>
    rw [List.length_singleton]
    omega
  case isFalse =>
    rw [List.length_nil]
    omega

theorem filled_none : Filled sgl 0 total [] := ⟨rfl, nofun⟩

theorem mapSkb_maps (o : TxOutcome) (skb : Skb N) (sgl : ℕ → SwSg) :
    Maps (mapped o skb) (pieces o skb) [] (pieces o skb).length (mapSkb o skb sgl) := by
  have hlen : (pieces o skb).length = (if skb.headlen > 0 then 1 else 0) + skb.frags.length := by
    rw [pieces, List.length_append, fragPieces_length]
    split <;> rfl
  rw [hlen, mapped, pieces, mapSkb]
  by_cases hhead : skb.headlen > 0
  · simp only [if_pos hhead]
    by_cases herr : dmaMappingError o.dmaMapSingle = true
    · rw [if_pos herr, List.singleton_append,
        List.takeWhile_cons_of_neg (by simp [mappingOk, herr])]
      exact .inr ⟨rfl, [], rfl, .refl _⟩
    · rw [if_neg herr, List.singleton_append, List.takeWhile_cons_of_pos (by simp [mappingOk, herr])]
      have hnext : (if 0 + 1 < skb.frags.length + 1 then some 1 else none) =
          if 0 + 1 < 1 + skb.frags.length then some (0 + 1) else none := by
        simp only [Nat.add_comm 1, Nat.zero_add]
      have hfill : Filled (update sgl 0 ⟨_, skb.headlen, o.dmaMapSingle⟩) (0 + 1)
          (1 + skb.frags.length) ([] ++ [(o.dmaMapSingle, skb.headlen)]) := filled_none.add hnext
      exact (mapFrags_maps hfill (Nat.zero_add _) rfl).cons
  · simp only [if_neg hhead, List.nil_append]
    exact mapFrags_maps filled_none (Nat.zero_add _) rfl

/-- The operations make the mappings `m` and undo the mappings `u`, take the contexts `a` and give
back the contexts `f`, and free the buffer `k` times. -/
structure Spent (ops : List TxOp) (m u : List (ℕ × ℕ)) (a f : List ℕ) (k : ℕ) : Prop where
  maps_eq : maps ops = m
  unmaps_perm : (unmaps ops).Perm u
  allocs_eq : mempoolAllocs ops = a
  frees_eq : mempoolFrees ops = f
  count_eq : ops.count .kfreeSkb = k

theorem Spent.append {m u m' u' : List (ℕ × ℕ)} {a f a' f' : List ℕ} {k k' : ℕ}
    (h : Spent ops m u a f k) (h' : Spent ops' m' u' a' f' k') :
    Spent (ops ++ ops') (m ++ m') (u ++ u') (a ++ a') (f ++ f') (k + k') := by
  refine ⟨?_, ?_, ?_, ?_, ?_⟩
  · rw [maps, List.filterMap_append]
    exact congrArg₂ _ h.maps_eq h'.maps_eq
  · rw [unmaps, List.filterMap_append]
    exact h.unmaps_perm.append h'.unmaps_perm
  · rw [mempoolAllocs, List.filterMap_append]
    exact congrArg₂ _ h.allocs_eq h'.allocs_eq
  · rw [mempoolFrees, List.filterMap_append]
    exact congrArg₂ _ h.frees_eq h'.frees_eq
  · rw [List.count_append, h.count_eq, h'.count_eq]

theorem spent_nil : Spent [] [] [] [] [] 0 := ⟨rfl, .refl _, rfl, rfl, rfl⟩

theorem spent_alloc (ctx : ℕ) : Spent [.mempoolAlloc ctx] [] [] [ctx] [] 0 :=
  ⟨rfl, .refl _, rfl, rfl, rfl⟩

theorem spent_free (ctx : ℕ) : Spent [.mempoolFree ctx] [] [] [] [ctx] 0 :=
  ⟨rfl, .refl _, rfl, rfl, rfl⟩

theorem spent_kfree : Spent [.kfreeSkb] [] [] [] [] 1 := ⟨rfl, .refl _, rfl, rfl, rfl⟩

theorem spent_maps (M : List (ℕ × ℕ)) : Spent (M.map fun m ↦ .dmaMap m.1 m.2) M [] [] [] 0 := by
  induction M with
  | nil => exact spent_nil
  | cons m M ih =>
    have hone : Spent [.dmaMap m.1 m.2] [m] [] [] [] 0 := ⟨rfl, .refl _, rfl, rfl, rfl⟩
    exact hone.append ih

theorem spent_unmaps (M : List (ℕ × ℕ)) : Spent (M.map fun m ↦ .dmaUnmap m.1 m.2) [] M [] [] 0 := by
  induction M with
  | nil => exact spent_nil
  | cons m M ih =>
    have hone : Spent [.dmaUnmap m.1 m.2] [] [m] [] [] 0 := ⟨rfl, .refl _, rfl, rfl, rfl⟩
    exact hone.append ih

theorem Spent.perm {u : List (ℕ × ℕ)} {k : ℕ} (h : Spent ops' [] u [] [] k) (hp : ops.Perm ops') :
    Spent ops [] u [] [] k :=
  ⟨((hp.filterMap _).trans (.of_eq h.maps_eq)).eq_nil, (hp.filterMap _).trans h.unmaps_perm,
    ((hp.filterMap _).trans (.of_eq h.allocs_eq)).eq_nil,
    ((hp.filterMap _).trans (.of_eq h.frees_eq)).eq_nil, (hp.count_eq _).trans h.count_eq⟩

/-- The list of a request holds exactly its `sgcnt` entries, linked in order, which lie in the array
of the context and together have the bytes of the buffer. -/
structure Chained (skb : Skb N) (req : Request) : Prop where
  sgcnt_le : req.sgcnt ≤ N + 1
  linked : ∀ j < req.sgcnt, (req.sgl j).next = if j + 1 < req.sgcnt then some (j + 1) else none
  sum_len : ((List.range req.sgcnt).map fun j ↦ (req.sgl j).len).sum = skb.len
  count_eq : req.count = skb.len

theorem buildReq_cases (o : TxOutcome) (skb : Skb N) :
    (∃ req, Chained skb req ∧ entries req.sgl req.sgcnt = mapped o skb ∧
      buildReqFromSkb o skb = (.ok req, (mapped o skb).map fun m ↦ .dmaMap m.1 m.2)) ∨
    ∃ ops, buildReqFromSkb o skb = (.error (-ENOMEM), ops) ∧
      Spent ops (mapped o skb) ((mapped o skb).filter nonzero) [] [] 0 := by
  have hmaps := mapSkb_maps o skb fun _ ↦ ⟨none, 0, 0⟩
  unfold buildReqFromSkb
  rcases hr : mapSkb o skb fun _ ↦ ⟨none, 0, 0⟩ with ⟨r, ops⟩
  rw [hr] at hmaps
  obtain ⟨hall, sgl, hf, rfl, rfl⟩ | ⟨rfl, undone, rfl, hp⟩ := hmaps
  · rw [List.nil_append, hall] at hf
    have hsum : ((entries sgl (pieces o skb).length).map Prod.snd).sum = skb.len := by
      rw [hf.entries_eq, pieces_sum]
    rw [entries, List.map_map] at hsum
    exact .inl ⟨_, ⟨pieces_length (o := o), hf.linked, hsum, rfl⟩, by rw [hall, hf.entries_eq], rfl⟩
  · have hspent := (spent_maps (mapped o skb)).append ((spent_unmaps _).perm hp)
    rw [List.nil_append, List.append_nil, List.nil_append] at hspent
    exact .inr ⟨_, rfl, hspent⟩

/-- What a transmission does, its completion included if the request was kept. -/
def frameOps (r : TxResult N) (pool : Mempool) : List TxOp :=
  match r.pending with
  | none => r.ops
  | some ctx => r.ops ++ (txCompleteCb pool (some ctx)).2.2

/-- The buffer is freed once, every mapping made is undone once, a context taken is given back once,
and a request that is submitted is well formed. -/
structure Conserved (skb : Skb N) (r : TxResult N) (pool : Mempool) : Prop where
  skb_freed : (frameOps r pool).count .kfreeSkb = 1
  unmapped : (unmaps (frameOps r pool)).Perm (maps (frameOps r pool))
  returned : mempoolFrees (frameOps r pool) = mempoolAllocs (frameOps r pool)
  chained : ∀ req, r.submitted = some req → Chained skb req

variable {running : Bool} {h2cQhndl qid : ℕ} {txCtx : Option ℕ} {pool pool' pool'' : Mempool}

def Attempted (running : Bool) (h2cQhndl : ℕ) (txCtx : Option ℕ) : Prop :=
  running = true ∧ h2cQhndl ≠ queueIdxInvalid ∧ txCtx.isSome = true

instance : Decidable (Attempted running h2cQhndl txCtx) := inferInstanceAs (Decidable (_ ∧ _ ∧ _))

theorem spent_complete (skb : Skb N) (qid : ℕ) (pool : Mempool) (ctx : ℕ) (req : Request) :
    Spent (txCompleteCb pool (some ⟨ctx, req, some skb, some qid⟩)).2.2 []
      ((entries req.sgl req.sgcnt).filter nonzero) [] [ctx] 1 := by
  have hspent := ((spent_unmaps ((entries req.sgl req.sgcnt).filter nonzero)).append spent_kfree).append
    (spent_free ctx)
  simp only [← unmapAll_eq, List.append_nil] at hspent
  exact hspent

theorem xmitFrame_dropped (o : TxOutcome) (skb : Skb N) (qid : ℕ) (pool pool' : Mempool)
    (h : ¬Attempted running h2cQhndl txCtx) :
    ∃ p, xmitFrame o skb running h2cQhndl qid txCtx pool pool' = ⟨0, p, [.kfreeSkb], none, none⟩ := by
  unfold xmitFrame
  split
  case isTrue => exact ⟨_, rfl⟩
  case isFalse hrun =>
    split
    case isTrue => exact ⟨_, rfl⟩
    case isFalse hq =>
      cases txCtx with
      | none => exact ⟨_, rfl⟩
      | some ctx => exact absurd ⟨by simpa using hrun, hq, rfl⟩ h

/-- A context was available: the submit fails, the request is kept and completes, or mapping fails. -/
theorem attempted_spent (hq : h2cQhndl ≠ queueIdxInvalid) (ctx : ℕ) :
    Spent (frameOps (xmitFrame o skb true h2cQhndl qid (some ctx) pool pool') pool'') (mapped o skb)
      ((mapped o skb).filter nonzero) [ctx] [ctx] 1 ∧
    ∀ req, (xmitFrame o skb true h2cQhndl qid (some ctx) pool pool').submitted = some req →
      Chained skb req := by
  rw [xmitFrame, if_neg (by decide), if_neg hq, txEnqueueSkb]
  obtain ⟨req, hchain, hent, heq⟩ | ⟨ops, heq, hops⟩ := buildReq_cases o skb
  · have hmaps := (spent_alloc ctx).append (spent_maps (mapped o skb))
    have hdone : ∀ r, some req = some r → Chained skb r :=
      fun r hr ↦ Option.some.inj hr ▸ hchain
    rw [heq]
    by_cases hsub : o.requestSubmit < 0
    · have hundo := (spent_unmaps ((mapped o skb).filter nonzero)).append
        ((spent_free ctx).append spent_kfree)
      have hall := hmaps.append hundo
      dsimp only
      rw [if_pos hsub]
      dsimp only
      rw [if_pos (by omega), unmapAll_eq, hent]
      refine ⟨?_, hdone⟩
      simpa [frameOps] using hall
    · have hall := hmaps.append (spent_complete skb qid pool'' ctx req)
      rw [hent] at hall
      dsimp only
      rw [if_neg hsub]
      exact ⟨by simpa [frameOps] using hall, hdone⟩
  · have hall := ((spent_alloc ctx).append hops).append ((spent_free ctx).append spent_kfree)
    rw [heq]
    dsimp only
    rw [if_pos (by decide)]
    exact ⟨by simpa [frameOps] using hall, nofun⟩

theorem frame_spent (o : TxOutcome) (skb : Skb N) (running : Bool) (h2cQhndl qid : ℕ)
    (txCtx : Option ℕ) (pool pool' pool'' : Mempool) : ∃ M a,
    (M = if Attempted running h2cQhndl txCtx then mapped o skb else []) ∧
    Spent (frameOps (xmitFrame o skb running h2cQhndl qid txCtx pool pool') pool'') M
      (M.filter nonzero) a a 1 ∧
    ∀ req, (xmitFrame o skb running h2cQhndl qid txCtx pool pool').submitted = some req →
      Chained skb req := by
  by_cases h : Attempted running h2cQhndl txCtx
  · obtain ⟨rfl, hq, hctx⟩ := h
    obtain ⟨ctx, rfl⟩ := Option.isSome_iff_exists.mp hctx
    exact ⟨mapped o skb, [ctx], by rw [if_pos ⟨rfl, hq, rfl⟩], attempted_spent hq ctx⟩
  · obtain ⟨p, heq⟩ := xmitFrame_dropped o skb qid pool pool' h
    rw [heq]
    exact ⟨[], [], (if_neg h).symm, spent_kfree, nofun⟩

theorem perm_filter_iff : (M.filter nonzero).Perm M ↔ ∀ m ∈ M, m.1 ≠ 0 := by
  have hnz : (∀ m ∈ M, m.1 ≠ 0) ↔ ∀ m ∈ M, nonzero m = true := by simp [nonzero]
  rw [hnz]
  constructor
  · intro h
    exact List.length_filter_eq_length_iff.mp h.length_eq
  · intro h
    rw [List.filter_eq_self.mpr h]

/-- A transmission with its completion conserves its resources exactly if none of its mappings is
given the bus address 0. -/
theorem xmit_conserved_iff :
    Conserved skb (xmitFrame o skb running h2cQhndl qid txCtx pool pool') pool'' ↔
      (Attempted running h2cQhndl txCtx → ∀ m ∈ mapped o skb, m.1 ≠ 0) := by
  obtain ⟨M, a, hM, hs, hchain⟩ := frame_spent o skb running h2cQhndl qid txCtx pool pool' pool''
  have hcond : (Attempted running h2cQhndl txCtx → ∀ m ∈ mapped o skb, m.1 ≠ 0) ↔
      ∀ m ∈ M, m.1 ≠ 0 := by
    rw [hM]
    split
    case isTrue h => exact ⟨fun hm ↦ hm h, fun hm _ ↦ hm⟩
    case isFalse h => exact ⟨fun _ ↦ nofun, fun _ h' ↦ absurd h' h⟩
  rw [hcond, ← perm_filter_iff]
  constructor
  · intro hc
    have hp := hc.unmapped
    rw [hs.maps_eq] at hp
    exact hs.unmaps_perm.symm.trans hp
  · intro hp
    refine ⟨hs.count_eq, ?_, hs.frees_eq.trans hs.allocs_eq.symm, hchain⟩
    rw [hs.maps_eq]
    exact hs.unmaps_perm.trans hp

/-- The head is mapped at the bus address 0 and the request is kept. -/
def mappedAtZero : TxOutcome := ⟨0, fun _ ↦ 0, 0⟩

theorem mapping_leaks : ¬∀ (o : TxOutcome) (skb : Skb 17) running h2cQhndl qid txCtx pool pool' pool'',
    Conserved skb (xmitFrame o skb running h2cQhndl qid txCtx pool pool') pool'' := by
  intro h
  let pool : Mempool := ⟨4096, 1, 8, 2, fun _ ↦ ⟨none, 0⟩⟩
  have hp := (h mappedAtZero ⟨60, [], by decide⟩ true 0 0 (some 4096) pool pool pool).unmapped
  exact absurd hp.length_eq (by decide)

end QdmaTrafficGen.QdmaNet
