import QdmaTrafficGen.NetDriver

open Function Sequential

namespace QdmaTrafficGen.QdmaNet

variable {c : Setting} {o : Outcome} {s t : Dev} {k : QueueId} {destroy : Dev → Dev} {q : ℕ}

def PoolCreated (c : Setting) (o : Outcome) (q : ℕ) : Prop :=
  ∃ pool, Mempool.create (o.kmalloc q) c.sizeofTxContext txCtxPoolSize = .ok pool

def Added (c : Setting) (o : Outcome) (k : QueueId) : Prop := k.2 < c.qmax ∧ 0 ≤ o.queueAdd k

def Started (o : Outcome) (k : QueueId) : Prop :=
  o.queueGet k = true ∧ 0 ≤ o.queueConfig k ∧ 0 ≤ o.queueStart k

def AllSetUp (c : Setting) (o : Outcome) : Prop :=
  (∀ q < c.numTxq, PoolCreated c o q ∧ Added c o (.h2c, q) ∧ Started o (.h2c, q)) ∧
    ∀ q < c.numRxq, Added c o (.c2h, q) ∧ Started o (.c2h, q)

/-- Transmit queue 0 already fails, and is not registered then: it was not and is not accepted, or
it is accepted and found but can not be configured or started. -/
def FailsFirst (c : Setting) (o : Outcome) (s : Dev) : Prop :=
  (¬(PoolCreated c o 0 ∧ Added c o (.h2c, 0)) ∧ s.registered (.h2c, 0) = false) ∨
    (PoolCreated c o 0 ∧ Added c o (.h2c, 0)) ∧ o.queueGet (.h2c, 0) = true ∧
      ¬(0 ≤ o.queueConfig (.h2c, 0) ∧ 0 ≤ o.queueStart (.h2c, 0))

/-- The outcomes with which bringing the device up leaves nothing behind when it fails. -/
def UpOk (c : Setting) (o : Outcome) (s : Dev) : Prop := AllSetUp c o ∨ FailsFirst c o s

/-- The device is not stopped or reset while the last bring-up has failed, and is brought up only
with such outcomes. -/
def Tame (c : Setting) (s : Dev) : Event → Prop
  | .ndoOpen o => c.devHndl = 0 ∨ UpOk c o s
  | .ndoStop => s.watchdogTask = true
  | .resetTask o => s.running = true → s.watchdogTask = true ∧ UpOk c o s

theorem setupQueue_of_not_added (h : ¬Added c o k) :
    (setupQueue c o k destroy s).1 ≠ 0 ∧ (setupQueue c o k destroy s).2 = destroy s := by
  unfold Added at h
  rw [setupQueue, xpdevQueueAdd]
  split
  case isTrue hge =>
    dsimp only
    rw [if_pos (by decide)]
    exact ⟨by dsimp only; decide, rfl⟩
  case isFalse hlt =>
    have hneg : o.queueAdd k < 0 := by omega
    rw [if_pos hneg]
    dsimp only
    rw [if_pos hneg]
    exact ⟨by dsimp only; omega, rfl⟩

def Dev.withQueue (s : Dev) (k : QueueId) : Dev :=
  { s with registered := update s.registered k true, log := s.log ++ [.queueAdd k] }

def Dev.withHandle (s : Dev) (c : Setting) (k : QueueId) : Dev :=
  { s with qhndl := update s.qhndl k (c.qhndl k) }

@[simp] theorem Dev.mempoolDestroy_registered : (s.mempoolDestroy q).registered = s.registered := rfl

theorem Dev.withHandle_qhndl : (s.withHandle c k).qhndl k = c.qhndl k := update_self ..

theorem Dev.withQueue_registered : (s.withQueue k).registered k = true := update_self ..

theorem Dev.delete_registered : (s.xpdevQueueDelete k).registered k = false := update_self ..

theorem xpdevQueueAdd_of_added (h : Added c o k) :
    xpdevQueueAdd c o k s = (o.queueAdd k, s.withQueue k) := by
  obtain ⟨hlt, hadd⟩ := h
  rw [xpdevQueueAdd, if_neg (not_le.mpr hlt), if_neg (not_lt.mpr hadd)]
  rfl

theorem setupQueue_of_not_found (h : Added c o k) (hg : o.queueGet k = false) :
    setupQueue c o k destroy s = (-EINVAL, destroy (s.withQueue k)) := by
  rw [setupQueue, xpdevQueueAdd_of_added h]
  dsimp only
  rw [if_neg (not_lt.mpr h.2), hg]
  rfl

theorem setupQueue_of_not_started (h : Added c o k) (hg : o.queueGet k = true)
    (hs : ¬(0 ≤ o.queueConfig k ∧ 0 ≤ o.queueStart k)) :
    (setupQueue c o k destroy s).1 ≠ 0 ∧ (setupQueue c o k destroy s).2 =
      destroy (((s.withQueue k).withHandle c k).xpdevQueueDelete k) := by
  rw [setupQueue, xpdevQueueAdd_of_added h]
  dsimp only
  rw [if_neg (not_lt.mpr h.2), hg, if_neg (by decide)]
  split
  case isTrue hneg => exact ⟨by dsimp only; omega, rfl⟩
  case isFalse hpos =>
    rw [if_pos (by omega)]
    exact ⟨by dsimp only; omega, rfl⟩

theorem setupQueue_of_started (h : Added c o k) (hs : Started o k) :
    setupQueue c o k destroy s = (0, (s.withQueue k).withHandle c k) := by
  obtain ⟨hg, hc, hst⟩ := hs
  rw [setupQueue, xpdevQueueAdd_of_added h]
  dsimp only
  rw [if_neg (not_lt.mpr h.2), hg, if_neg (by decide), if_neg (not_lt.mpr hc), if_neg (not_lt.mpr hst)]
  rfl

theorem setupQueue_eq_zero_iff :
    (setupQueue c o k destroy s).1 = 0 ↔ Added c o k ∧ Started o k := by
  by_cases ha : Added c o k
  · cases hg : o.queueGet k with
    | false =>
      rw [setupQueue_of_not_found ha hg, Started, hg]
      exact ⟨fun h ↦ absurd h (show (-EINVAL : ℤ) ≠ 0 by decide), fun h ↦ nomatch h.2.1⟩
    | true =>
      by_cases hs : 0 ≤ o.queueConfig k ∧ 0 ≤ o.queueStart k
      · rw [setupQueue_of_started ha ⟨hg, hs⟩]
        exact ⟨fun _ ↦ ⟨ha, hg, hs⟩, fun _ ↦ rfl⟩
      · exact ⟨fun h ↦ absurd h (setupQueue_of_not_started ha hg hs).1, fun h ↦ absurd h.2.2 hs⟩
  · exact ⟨fun h ↦ absurd h (setupQueue_of_not_added ha).1, fun h ↦ absurd h.1 ha⟩

/-- The driver has set up exactly the queues of `K` and the pools of `T`. Apart from them only
transmit queue 0, whose handle is 0, may be registered; what is registered was not deleted. -/
structure Held (c : Setting) (K : Set QueueId) (T : Set ℕ) (s : Dev) : Prop where
  present : ∀ k ∈ K, s.registered k = true ∧ s.qhndl k = c.qhndl k ∧ k.2 < c.qmax
  absent : ∀ k, k ∉ K → s.qhndl k = 0 ∧ (s.registered k = true → k = (.h2c, 0))
  pools : ∀ q, s.txCtxPool q = none ↔ q ∉ T
  sound : ∀ k, ∃ d, observe (queueMonitor k) false s.log = some d ∧ (s.registered k = true → d = false)

variable {K : Set QueueId} {T : Set ℕ}

theorem Held.accepts (h : Held c K T s) : NoUseAfterDelete s.log := by
  intro k
  obtain ⟨d, hd, -⟩ := h.sound k
  rw [Accepts, hd]
  rfl

theorem Held.withQueue (h : Held c K T s) (hk : k.2 < c.qmax) :
    Held c (insert k K) T ((s.withQueue k).withHandle c k) := by
  refine ⟨?_, ?_, h.pools, ?_⟩
  · rintro j (rfl | hj)
    · exact ⟨update_self .., update_self .., hk⟩
    · by_cases hjk : j = k
      · subst hjk
        exact ⟨update_self .., update_self .., hk⟩
      · obtain ⟨hr, hq, hlt⟩ := h.present j hj
        exact ⟨(update_of_ne hjk ..).trans hr, (update_of_ne hjk ..).trans hq, hlt⟩
  · intro j hj
    have hjk : j ≠ k := fun heq ↦ hj (.inl heq)
    obtain ⟨hq, hr⟩ := h.absent j fun hj' ↦ hj (.inr hj')
    refine ⟨(update_of_ne hjk ..).trans hq, ?_⟩
    intro hr'
    exact hr ((update_of_ne hjk ..).symm.trans hr')
  · intro j
    obtain ⟨d, hd, hr⟩ := h.sound j
    refine ⟨if k = j then false else d, observe_of_concat hd, ?_⟩
    intro hr'
    split
    case isTrue => rfl
    case isFalse hne => exact hr ((update_of_ne (Ne.symm hne) ..).symm.trans hr')

theorem Held.deleted (h : Held c K T s) (hk : k ∈ K) :
    Held c (K \ {k}) T { s.xpdevQueueDelete k with qhndl := update s.qhndl k 0 } := by
  refine ⟨?_, ?_, h.pools, ?_⟩
  · rintro j ⟨hj, hjk⟩
    obtain ⟨hr, hq, hlt⟩ := h.present j hj
    exact ⟨(update_of_ne hjk ..).trans hr, (update_of_ne hjk ..).trans hq, hlt⟩
  · intro j hj
    by_cases hjk : j = k
    · subst hjk
      exact ⟨update_self .., fun hr ↦ absurd ((update_self ..).symm.trans hr) Bool.false_ne_true⟩
    · obtain ⟨hq, hr⟩ := h.absent j fun hj' ↦ hj ⟨hj', hjk⟩
      refine ⟨(update_of_ne hjk ..).trans hq, ?_⟩
      intro hr'
      exact hr ((update_of_ne hjk ..).symm.trans hr')
  · intro j
    obtain ⟨d, hd, hr⟩ := h.sound j
    by_cases hjk : j = k
    · subst hjk
      refine ⟨true, ?_, fun hr' ↦ absurd ((update_self ..).symm.trans hr') Bool.false_ne_true⟩
      rw [Dev.xpdevQueueDelete, observe_of_concat hd, hr (h.present j hk).1]
      exact if_pos rfl
    · refine ⟨d, ?_, fun hr' ↦ hr ((update_of_ne hjk ..).symm.trans hr')⟩
      rw [Dev.xpdevQueueDelete, observe_of_concat hd]
      exact if_neg (Ne.symm hjk)

theorem Held.deleted_of_zero (h : Held c K T s) (hk : k ∈ K) (hz : s.qhndl k = 0) :
    Held c (K \ {k}) T (s.xpdevQueueDelete k) := by
  have hq : update s.qhndl k 0 = s.qhndl := by rw [← hz, update_eq_self]
  have hd := h.deleted hk
  rwa [hq] at hd

theorem queueOf_qhndl (hk : k.2 < c.qmax) : c.queueOf (c.qhndl k) = k := by
  obtain ⟨t, q⟩ := k
  have hk' : q < c.qmax := hk
  cases t with
  | h2c => exact if_pos hk'
  | c2h =>
    rw [Setting.qhndl, Setting.queueOf, if_neg (by omega), Nat.add_sub_cancel]

theorem Held.stopped (h : Held c K T s) (hk : k ∈ K) :
    Held c K T (qdmaQueueStop c (s.qhndl k) s) := by
  obtain ⟨hreg, hq, hlt⟩ := h.present k hk
  refine ⟨h.present, h.absent, h.pools, ?_⟩
  intro j
  obtain ⟨d, hd, hr⟩ := h.sound j
  refine ⟨d, ?_, hr⟩
  rw [qdmaQueueStop, hq, queueOf_qhndl hlt, observe_of_concat hd]
  apply if_neg
  rintro ⟨rfl, hdel⟩
  rw [hr hreg] at hdel
  nomatch hdel

theorem Held.congr {K' : Set QueueId} {T' : Set ℕ} (h : Held c K T s) (hK : ∀ k, k ∈ K' ↔ k ∈ K)
    (hT : ∀ q, q ∈ T' ↔ q ∈ T) : Held c K' T' s := by
  obtain rfl : K' = K := Set.ext hK
  obtain rfl : T' = T := Set.ext hT
  exact h

theorem Held.freeQueue (h : Held c K T s) : Held c (K \ {k}) T (freeQueue c k s) := by
  unfold QdmaNet.freeQueue
  split
  case isTrue hne =>
    have hk : k ∈ K := by
      by_contra hk
      exact hne (h.absent k hk).1
    exact (h.stopped hk).deleted hk
  case isFalse hz =>
    have hz := not_not.mp hz
    refine ⟨fun j hj ↦ h.present j hj.1, ?_, h.pools, h.sound⟩
    intro j hj
    by_cases hjK : j ∈ K
    · obtain rfl : j = k := by
        by_contra hjk
        exact hj ⟨hjK, hjk⟩
      obtain ⟨-, hq, hlt⟩ := h.present j hjK
      refine ⟨hz, fun _ ↦ ?_⟩
      obtain ⟨t, q⟩ := j
      rw [hz] at hq
      cases t with
      | h2c =>
        obtain rfl : 0 = q := hq
        rfl
      | c2h =>
        have hlt' : q < c.qmax := hlt
        have hq' : 0 = q + c.qmax := hq
        omega
    · exact h.absent j hjK

theorem Held.mempoolDestroy (h : Held c K T s) : Held c K (T \ {q}) (s.mempoolDestroy q) := by
  refine ⟨h.present, h.absent, ?_, h.sound⟩
  intro r
  by_cases hrq : r = q
  · subst hrq
    exact ⟨fun _ hr ↦ hr.2 rfl, fun _ ↦ update_self ..⟩
  · dsimp only [Dev.mempoolDestroy]
    rw [update_of_ne hrq, h.pools]
    exact not_congr ⟨fun hr ↦ ⟨hr, hrq⟩, fun hr ↦ hr.1⟩

theorem Held.withPool {pool : Mempool} (h : Held c K T s) :
    Held c K (insert q T) { s with txCtxPool := update s.txCtxPool q (some pool) } := by
  refine ⟨h.present, h.absent, ?_, h.sound⟩
  intro r
  by_cases hrq : r = q
  · subst hrq
    dsimp only
    rw [update_self]
    exact ⟨nofun, fun hr ↦ absurd (.inl rfl) hr⟩
  · dsimp only
    rw [update_of_ne hrq, h.pools]
    exact not_congr ⟨.inr, fun hr ↦ hr.resolve_left hrq⟩

def queues (T R : Set ℕ) : Set QueueId :=
  {k | k.2 ∈ match k.1 with
    | .h2c => T
    | .c2h => R}

def Holding (c : Setting) (T R : Set ℕ) (s : Dev) : Prop := Held c (queues T R) T s

variable {R : Set ℕ}

theorem mem_queues_insert_h2c : k ∈ queues (insert q T) R ↔ k ∈ insert (.h2c, q) (queues T R) := by
  obtain ⟨t, r⟩ := k
  cases t <;> simp [queues]

theorem mem_queues_insert_c2h : k ∈ queues T (insert q R) ↔ k ∈ insert (.c2h, q) (queues T R) := by
  obtain ⟨t, r⟩ := k
  cases t <;> simp [queues]

theorem mem_queues_diff_h2c : k ∈ queues (T \ {q}) R ↔ k ∈ queues T R \ {(.h2c, q)} := by
  obtain ⟨t, r⟩ := k
  cases t <;> simp [queues]

theorem mem_queues_diff_c2h : k ∈ queues T (R \ {q}) ↔ k ∈ queues T R \ {(.c2h, q)} := by
  obtain ⟨t, r⟩ := k
  cases t <;> simp [queues]

theorem setupTxResources_of_pool (h : PoolCreated c o q) : ∃ pool, setupTxResources c o q s =
    setupQueue c o (.h2c, q) (Dev.mempoolDestroy q)
      { s with txCtxPool := update s.txCtxPool q (some pool) } := by
  obtain ⟨pool, hp⟩ := h
  exact ⟨pool, by rw [setupTxResources, hp]⟩

theorem setupTxResources_of_no_pool (h : ¬PoolCreated c o q) :
    (setupTxResources c o q s).1 ≠ 0 ∧ (setupTxResources c o q s).2 = s.mempoolDestroy q := by
  unfold setupTxResources
  split
  · next rv hrv =>
    refine ⟨?_, rfl⟩
    unfold Mempool.create at hrv
    split at hrv
    · rw [← Except.error.inj hrv]
      exact show (-ENOMEM : ℤ) ≠ 0 by decide
    · nomatch hrv
  · next pool hp => exact absurd ⟨pool, hp⟩ h

theorem setupTxResources_eq_zero_iff : (setupTxResources c o q s).1 = 0 ↔
    PoolCreated c o q ∧ Added c o (.h2c, q) ∧ Started o (.h2c, q) := by
  by_cases hp : PoolCreated c o q
  · obtain ⟨pool, heq⟩ := setupTxResources_of_pool (s := s) hp
    rw [heq, setupQueue_eq_zero_iff]
    exact ⟨fun h ↦ ⟨hp, h⟩, fun h ↦ h.2⟩
  · exact ⟨fun h ↦ absurd h (setupTxResources_of_no_pool hp).1, fun h ↦ absurd h.1 hp⟩

theorem setupRxResources_eq_zero_iff :
    (setupRxResources c o q s).1 = 0 ↔ Added c o (.c2h, q) ∧ Started o (.c2h, q) :=
  setupQueue_eq_zero_iff

theorem Holding.setupTx (h : Holding c T R s) (hz : (setupTxResources c o q s).1 = 0) :
    Holding c (insert q T) R (setupTxResources c o q s).2 := by
  obtain ⟨hp, ha, hs⟩ := setupTxResources_eq_zero_iff.mp hz
  obtain ⟨pool, heq⟩ := setupTxResources_of_pool (s := s) hp
  rw [heq, setupQueue_of_started ha hs]
  exact (h.withPool.withQueue ha.1).congr (fun _ ↦ mem_queues_insert_h2c) fun _ ↦ Iff.rfl

theorem Holding.setupRx (h : Holding c T R s) (hz : (setupRxResources c o q s).1 = 0) :
    Holding c T (insert q R) (setupRxResources c o q s).2 := by
  obtain ⟨ha, hs⟩ := setupRxResources_eq_zero_iff.mp hz
  rw [setupRxResources, setupQueue_of_started ha hs]
  exact (h.withQueue ha.1).congr (fun _ ↦ mem_queues_insert_c2h) fun _ ↦ Iff.rfl

theorem Holding.freeTx (h : Holding c T R s) : Holding c (T \ {q}) R (freeTxResources c q s) :=
  h.freeQueue.mempoolDestroy.congr (fun _ ↦ mem_queues_diff_h2c) fun _ ↦ Iff.rfl

theorem Holding.freeRx (h : Holding c T R s) : Holding c T (R \ {q}) (freeRxResources c q s) :=
  h.freeQueue.congr (fun _ ↦ mem_queues_diff_c2h) fun _ ↦ Iff.rfl

theorem Holding.setupAllTx (h : Holding c ∅ R s) (hz : (setupAllTxResources c o s).1 = 0) :
    Holding c (Set.Iio c.numTxq) R (setupAllTxResources c o s).2 :=
  setUpAll_adds (Q := fun T ↦ Holding c T R) h (fun _ _ _ ht ↦ ht.setupTx) hz

theorem Holding.setupAllRx (h : Holding c T ∅ s) (hz : (setupAllRxResources c o s).1 = 0) :
    Holding c T (Set.Iio c.numRxq) (setupAllRxResources c o s).2 :=
  setUpAll_adds (Q := Holding c T) h (fun _ _ _ ht ↦ ht.setupRx) hz

theorem Holding.freeAllTx (h : Holding c (Set.Iio c.numTxq) R s) :
    Holding c ∅ R (freeAllTxResources c s) :=
  each_removes (Q := fun T ↦ Holding c T R) h fun _ _ _ ht ↦ ht.freeTx

theorem Holding.freeAllRx (h : Holding c T (Set.Iio c.numRxq) s) :
    Holding c T ∅ (freeAllRxResources c s) :=
  each_removes (Q := Holding c T) h fun _ _ _ ht ↦ ht.freeRx

theorem setupQueue_cases (c : Setting) (o : Outcome) (k : QueueId) (destroy : Dev → Dev) (s : Dev) :
    (setupQueue c o k destroy s).2 = destroy s ∨
    (setupQueue c o k destroy s).2 = destroy (s.withQueue k) ∨
    (setupQueue c o k destroy s).2 =
      destroy (((s.withQueue k).withHandle c k).xpdevQueueDelete k) ∨
    (setupQueue c o k destroy s).2 = (s.withQueue k).withHandle c k := by
  by_cases ha : Added c o k
  · cases hg : o.queueGet k with
    | false => exact .inr (.inl (by rw [setupQueue_of_not_found ha hg]))
    | true =>
      by_cases hs : 0 ≤ o.queueConfig k ∧ 0 ≤ o.queueStart k
      · exact .inr (.inr (.inr (by rw [setupQueue_of_started ha ⟨hg, hs⟩])))
      · exact .inr (.inr (.inl (setupQueue_of_not_started ha hg hs).2))
  · exact .inl (setupQueue_of_not_added ha).2

theorem setupQueue_invariant {I : Dev → Prop} (hq : ∀ t, I t → I (t.withQueue k))
    (hh : ∀ t, I t → I (t.withHandle c k)) (hx : ∀ t, I t → I (t.xpdevQueueDelete k))
    (hd : ∀ t, I t → I (destroy t)) (hs : I s) : I (setupQueue c o k destroy s).2 := by
  have hadd := hq s hs
  have htake := hh _ hadd
  obtain heq | heq | heq | heq := setupQueue_cases c o k destroy s
  · exact heq ▸ hd s hs
  · exact heq ▸ hd _ hadd
  · exact heq ▸ hd _ (hx _ htake)
  · exact heq ▸ htake

/-- What no call to the Xilinx driver, no handle and no pool changes. -/
structure Kept (c : Setting) (I : Dev → Prop) : Prop where
  queue : ∀ t k, I t → I (t.withQueue k)
  delete : ∀ t k, I t → I (t.xpdevQueueDelete k)
  stop : ∀ t n, I t → I (qdmaQueueStop c n t)
  handle : ∀ t k n, I t → I { t with qhndl := update t.qhndl k n }
  pool : ∀ t q pool, I t → I { t with txCtxPool := update t.txCtxPool q pool }

namespace Kept

variable {I : Dev → Prop}

theorem setupQueue (h : Kept c I) (hd : ∀ t, I t → I (destroy t)) (hs : I s) :
    I (setupQueue c o k destroy s).2 :=
  setupQueue_invariant (fun t ↦ h.queue t k) (fun t ↦ h.handle t k _) (fun t ↦ h.delete t k) hd hs

theorem setupTx (h : Kept c I) (hs : I s) : I (setupTxResources c o q s).2 := by
  by_cases hp : PoolCreated c o q
  · obtain ⟨pool, heq⟩ := setupTxResources_of_pool (s := s) hp
    rw [heq]
    exact h.setupQueue (fun t ↦ h.pool t q none) (h.pool s q _ hs)
  · rw [(setupTxResources_of_no_pool hp).2]
    exact h.pool s q none hs

theorem setupRx (h : Kept c I) (hs : I s) : I (setupRxResources c o q s).2 :=
  h.setupQueue (fun _ ↦ id) hs

theorem freeQueue (h : Kept c I) (hs : I s) : I (freeQueue c k s) := by
  unfold QdmaNet.freeQueue
  split
  case isTrue => exact h.handle _ k 0 (h.delete _ k (h.stop s _ hs))
  case isFalse => exact hs

theorem freeTx (h : Kept c I) (hs : I s) : I (freeTxResources c q s) := h.pool _ q none (h.freeQueue hs)

theorem freeAllTx (h : Kept c I) (hs : I s) : I (freeAllTxResources c s) :=
  each_invariant hs fun _ _ _ ↦ h.freeTx

theorem freeAllRx (h : Kept c I) (hs : I s) : I (freeAllRxResources c s) :=
  each_invariant hs fun _ _ _ ↦ h.freeQueue

theorem setupAllTx (h : Kept c I) (hs : I s) : I (setupAllTxResources c o s).2 :=
  setUpAll_invariant hs (fun _ _ _ ↦ h.setupTx) fun _ _ _ ↦ h.freeTx

theorem setupAllRx (h : Kept c I) (hs : I s) : I (setupAllRxResources c o s).2 :=
  setUpAll_invariant hs (fun _ _ _ ↦ h.setupRx) fun _ _ _ ↦ h.freeQueue

end Kept

/-- Transmit queue 0 is registered, and its handle 0 keeps it from being deleted. -/
def Stays (s : Dev) : Prop := s.registered (.h2c, 0) = true ∧ s.qhndl (.h2c, 0) = 0

theorem Stays.not_clean (h : Stays s) : ¬s.Clean := by
  intro hc
  nomatch h.1.symm.trans (hc.1 _)

theorem Stays.setupQueue (h : Stays s) (hk : (.h2c, 0) ≠ k) (hd : ∀ t, Stays t → Stays (destroy t)) :
    Stays (setupQueue c o k destroy s).2 := by
  apply setupQueue_invariant ?_ ?_ ?_ hd h
  · exact fun t ht ↦ ⟨(update_of_ne hk ..).trans ht.1, ht.2⟩
  · exact fun t ht ↦ ⟨ht.1, (update_of_ne hk ..).trans ht.2⟩
  · exact fun t ht ↦ ⟨(update_of_ne hk ..).trans ht.1, ht.2⟩

theorem Stays.setupTx (h : Stays s) (hq : q ≠ 0) : Stays (setupTxResources c o q s).2 := by
  by_cases hp : PoolCreated c o q
  · obtain ⟨pool, heq⟩ := setupTxResources_of_pool (s := s) hp
    rw [heq]
    exact Stays.setupQueue h (fun heq ↦ hq (Prod.mk.inj heq).2.symm) fun _ ↦ id
  · rw [(setupTxResources_of_no_pool hp).2]
    exact h

theorem Stays.freeQueue (h : Stays s) : Stays (freeQueue c k s) := by
  unfold QdmaNet.freeQueue
  split
  case isTrue hne =>
    have hk : (.h2c, 0) ≠ k := by
      rintro rfl
      exact hne h.2
    exact ⟨(update_of_ne hk ..).trans h.1, (update_of_ne hk ..).trans h.2⟩
  case isFalse => exact h

theorem Stays.setupAllRx (h : Stays s) : Stays (setupAllRxResources c o s).2 :=
  setUpAll_invariant h (fun _ _ _ ht ↦ ht.setupQueue nofun fun _ ↦ id) fun _ _ _ ht ↦ ht.freeQueue

theorem Stays.freeAllTx (h : Stays s) : Stays (freeAllTxResources c s) :=
  each_invariant h fun _ _ _ ht ↦ ht.freeQueue

end QdmaTrafficGen.QdmaNet
