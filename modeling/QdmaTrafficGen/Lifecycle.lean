import QdmaTrafficGen.QueueSetUp

open Function Sequential

namespace QdmaTrafficGen.QdmaNet

variable {c : Setting} {o : Outcome} {s t : Dev} {q n : ℕ} {l : List Action}

theorem up_eq_zero_iff : (up c o s).1 = 0 ↔ AllSetUp c o := by
  have htx := setUpAll_eq_zero_iff (n := c.numTxq) (s := s) (freeTxResources c)
    fun q t ↦ setupTxResources_eq_zero_iff (c := c) (o := o) (q := q) (s := t)
  have hrx := fun t ↦ setUpAll_eq_zero_iff (n := c.numRxq) (s := t) (freeRxResources c)
    fun q t ↦ setupRxResources_eq_zero_iff (c := c) (o := o) (q := q) (s := t)
  rw [AllSetUp, ← htx, up, setupAllTxResources]
  dsimp only
  split
  case isTrue hne => exact ⟨fun h ↦ absurd h hne, fun h ↦ absurd h.1 hne⟩
  case isFalse hz =>
    rw [← hrx (setUpAll (setupTxResources c o) (freeTxResources c) c.numTxq s).2,
      setupAllRxResources]
    split
    case isTrue hne => exact ⟨fun h ↦ absurd h hne, fun h ↦ absurd h.2 hne⟩
    case isFalse hz' => exact ⟨fun _ ↦ ⟨not_not.mp hz, not_not.mp hz'⟩, fun _ ↦ rfl⟩

theorem up_of_allSetUp (h : AllSetUp c o) : (setupAllTxResources c o s).1 = 0 ∧
    (setupAllRxResources c o (setupAllTxResources c o s).2).1 = 0 ∧
    (up c o s).2 = { napiEnableAll c (setupAllRxResources c o (setupAllTxResources c o s).2).2 with
      watchdogTask := true } := by
  have hz := up_eq_zero_iff (s := s).mpr h
  unfold up at hz ⊢
  dsimp only at hz ⊢
  split at hz
  case isTrue hne => exact absurd hz hne
  case isFalse htx =>
    split at hz
    case isTrue hne => exact absurd hz hne
    case isFalse hrx =>
      rw [if_neg htx, if_neg hrx]
      exact ⟨not_not.mp htx, not_not.mp hrx, rfl⟩

theorem setupTx_ne_zero_of_failsFirst (h : FailsFirst c o s) : (setupTxResources c o 0 s).1 ≠ 0 := by
  rw [ne_eq, setupTxResources_eq_zero_iff]
  rintro ⟨hp, ha, -, hst⟩
  obtain ⟨hno, -⟩ | ⟨-, -, hno⟩ := h
  · exact hno ⟨hp, ha⟩
  · exact hno hst

theorem up_of_failsFirst (hn : 0 < c.numTxq) (h : FailsFirst c o s) :
    (up c o s).1 ≠ 0 ∧ up c o s = setupTxResources c o 0 s := by
  have hne := setupTx_ne_zero_of_failsFirst h
  have heq : setupAllTxResources c o s = setupTxResources c o 0 s :=
    setUpAll_of_first_fails hn hne
  have hup : up c o s = setupTxResources c o 0 s := by
    rw [up, heq]
    exact if_pos hne
  exact ⟨hup ▸ hne, hup⟩

theorem Holding.not_registered (h : Holding c ∅ ∅ s) {k : QueueId} (hk : k ≠ (.h2c, 0)) :
    s.registered k = false := by
  have hmem : k ∉ queues ∅ ∅ := by
    obtain ⟨t, r⟩ := k
    cases t <;> simp [queues]
  by_contra hreg
  exact hk ((h.absent k hmem).2 (Bool.eq_true_of_not_eq_false hreg))

theorem Holding.clean (h : Holding c ∅ ∅ s) (hr : s.registered (.h2c, 0) = false) : s.Clean := by
  refine ⟨fun k ↦ ?_, fun q ↦ (h.pools q).mpr fun hq ↦ hq⟩
  by_cases hk : k = (.h2c, 0)
  · rwa [hk]
  · exact h.not_registered hk

theorem Holding.qhndl_first (h : Holding c ∅ ∅ s) : s.qhndl (.h2c, 0) = 0 :=
  (h.absent (.h2c, 0) fun hq ↦ hq).1

theorem Holding.failsFirst (h : Holding c ∅ ∅ s) (hf : FailsFirst c o s) :
    Holding c ∅ ∅ (setupTxResources c o 0 s).2 ∧
      (setupTxResources c o 0 s).2.registered (.h2c, 0) = false := by
  by_cases hp : PoolCreated c o 0
  · obtain ⟨pool, heq⟩ := setupTxResources_of_pool (s := s) hp
    have hpool : Held c (queues ∅ ∅) (insert 0 ∅)
        { s with txCtxPool := update s.txCtxPool 0 (some pool) } := h.withPool
    rw [heq]
    by_cases ha : Added c o (.h2c, 0)
    · obtain ⟨hno, -⟩ | ⟨-, hg, hst⟩ := hf
      · exact absurd ⟨hp, ha⟩ hno
      · rw [(setupQueue_of_not_started ha hg hst).2]
        refine ⟨?_, by rw [Dev.mempoolDestroy_registered, Dev.delete_registered]⟩
        have hq := (hpool.withQueue ha.1).deleted_of_zero (.inl rfl) Dev.withHandle_qhndl
        refine (hq.mempoolDestroy (q := 0)).congr (fun k ↦ ?_) ?_
        · obtain ⟨t, r⟩ := k
          cases t <;> simp [queues]
        · simp
    · obtain ⟨-, hr⟩ | ⟨⟨-, ha'⟩, -⟩ := hf
      · rw [(setupQueue_of_not_added ha).2]
        exact ⟨(hpool.mempoolDestroy (q := 0)).congr (fun _ ↦ Iff.rfl) (by simp), hr⟩
      · exact absurd ha' ha
  · obtain ⟨-, hr⟩ | ⟨⟨hp', -⟩, -⟩ := hf
    · rw [(setupTxResources_of_no_pool hp).2]
      exact ⟨h.mempoolDestroy.congr (fun _ ↦ Iff.rfl) (by simp), hr⟩
    · exact absurd hp' hp

/-- Any other failure in it leaves the queue registered. -/
theorem Holding.setupTx_stays (h : Holding c ∅ ∅ s) (hne : (setupTxResources c o 0 s).1 ≠ 0)
    (hf : ¬FailsFirst c o s) : Stays (setupTxResources c o 0 s).2 := by
  have hq := h.qhndl_first
  by_cases hpa : PoolCreated c o 0 ∧ Added c o (.h2c, 0)
  · obtain ⟨pool, heq⟩ := setupTxResources_of_pool (s := s) hpa.1
    cases hg : o.queueGet (.h2c, 0) with
    | false =>
      rw [heq, setupQueue_of_not_found hpa.2 hg]
      exact ⟨by rw [Dev.mempoolDestroy_registered, Dev.withQueue_registered], hq⟩
    | true =>
      by_cases hst : 0 ≤ o.queueConfig (.h2c, 0) ∧ 0 ≤ o.queueStart (.h2c, 0)
      · exact absurd (setupTxResources_eq_zero_iff.mpr ⟨hpa.1, hpa.2, hg, hst⟩) hne
      · exact absurd (.inr ⟨hpa, hg, hst⟩) hf
  · have hr : s.registered (.h2c, 0) = true := by
      by_contra hr
      exact hf (.inl ⟨hpa, Bool.eq_false_of_not_eq_true hr⟩)
    by_cases hp : PoolCreated c o 0
    · obtain ⟨pool, heq⟩ := setupTxResources_of_pool (s := s) hp
      rw [heq, (setupQueue_of_not_added fun ha ↦ hpa ⟨hp, ha⟩).2]
      exact ⟨hr, hq⟩
    · rw [(setupTxResources_of_no_pool hp).2]
      exact ⟨hr, hq⟩

theorem Holding.setupTx_first (h : Holding c ∅ ∅ s) (hz : (setupTxResources c o 0 s).1 = 0) :
    Stays (setupTxResources c o 0 s).2 := by
  obtain ⟨hr, hq, -⟩ := (h.setupTx hz).present (.h2c, 0) (by simp [queues])
  exact ⟨hr, hq⟩

theorem setupAllTx_stays (hn : 0 < c.numTxq) (h : Holding c ∅ ∅ s) (hf : ¬FailsFirst c o s) :
    Stays (setupAllTxResources c o s).2 := by
  have hs : ∀ i < c.numTxq, ∀ t, (i = 0 → t = s) ∧ (0 < i → Stays t) →
      (setupTxResources c o i t).1 = 0 →
      (i + 1 = 0 → (setupTxResources c o i t).2 = s) ∧
        (0 < i + 1 → Stays (setupTxResources c o i t).2) := by
    -- once transmit queue 0 is set up, no later step deletes it
    intro i _ t ⟨h₀, hpos⟩ hz
    refine ⟨nofun, fun _ ↦ ?_⟩
    rcases Nat.eq_zero_or_pos i with rfl | hi
    · obtain rfl := h₀ rfl
      exact h.setupTx_first hz
    · exact (hpos hi).setupTx (by omega)
  obtain ⟨-, -, hst⟩ | ⟨i, -, t, ⟨h₀, hpos⟩, hne, heq⟩ :=
    setUpAll_rule (P := fun i t ↦ (i = 0 → t = s) ∧ (0 < i → Stays t)) (freeTxResources c)
      ⟨fun _ ↦ rfl, nofun⟩ hs
  · exact hst hn
  · rw [setupAllTxResources, heq]
    rcases Nat.eq_zero_or_pos i with rfl | hi
    · obtain rfl := h₀ rfl
      exact h.setupTx_stays hne hf
    · exact rollback_invariant ((hpos hi).setupTx (by omega)) fun _ _ _ ht ↦ ht.freeQueue

theorem up_stays (hn : 0 < c.numTxq) (h : Holding c ∅ ∅ s) (ho : ¬UpOk c o s) :
    Stays (up c o s).2 := by
  obtain ⟨hall, hf⟩ := not_or.mp ho
  have htx := setupAllTx_stays hn h hf
  rw [← up_eq_zero_iff (s := s)] at hall
  unfold up at hall ⊢
  dsimp only at hall ⊢
  split
  case isTrue => exact htx
  case isFalse hz =>
    rw [if_neg hz] at hall
    split
    case isTrue => exact htx.setupAllRx.freeAllTx
    case isFalse hz' =>
      rw [if_neg hz'] at hall
      exact absurd rfl hall

theorem observe_ignores {a : Action} (h : ∀ b, napiMonitor q b a = some b) :
    observe (napiMonitor q) false (l ++ [a]) = observe (napiMonitor q) false l := by
  rw [observe_concat]
  cases observe (napiMonitor q) false l with
  | none => rfl
  | some b => exact h b

theorem kept_flags (P : Bool → Bool → Prop) : Kept c fun t ↦ P t.watchdogTask t.running :=
  ⟨fun _ _ ↦ id, fun _ _ ↦ id, fun _ _ ↦ id, fun _ _ _ ↦ id, fun _ _ _ ↦ id⟩

theorem kept_log (l : List Action) : Kept c fun t ↦ l <+: t.log :=
  ⟨fun _ _ h ↦ h.trans (List.prefix_append ..), fun _ _ h ↦ h.trans (List.prefix_append ..),
    fun _ _ h ↦ h.trans (List.prefix_append ..), fun _ _ _ ↦ id, fun _ _ _ ↦ id⟩

/-- NAPI has been enabled and disabled in turn, and is enabled on the queues that satisfy `p`. -/
def Napi (p : ℕ → Bool) (s : Dev) : Prop := ∀ q, observe (napiMonitor q) false s.log = some (p q)

theorem Napi.alternates {p : ℕ → Bool} (h : Napi p s) : NapiAlternates s.log := by
  intro q
  rw [Accepts, h q]
  rfl

theorem Napi.enableAll (h : Napi (fun _ ↦ false) s) :
    Napi (fun q ↦ decide (q < c.numRxq)) (napiEnableAll c s) := by
  have h₀ : Napi (fun q ↦ decide (q < 0)) s := h
  apply each_rule (P := fun i ↦ Napi fun q ↦ decide (q < i)) h₀
  intro i _ t ht q
  rw [Dev.napiEnable, observe_of_concat (ht q), napiMonitor]
  by_cases hq : i = q
  · subst hq
    simp
  · have hiff : q < i ↔ q < i + 1 := by omega
    simp [hq, hiff]

theorem Napi.disableAll (h : Napi (fun q ↦ decide (q < c.numRxq)) s) :
    Napi (fun _ ↦ false) (napiDisableAll c s) := by
  have h₀ : Napi (fun q ↦ decide (0 ≤ q ∧ q < c.numRxq)) s := fun q ↦ by simpa using h q
  have hall := each_rule (P := fun i ↦ Napi fun q ↦ decide (i ≤ q ∧ q < c.numRxq))
    (f := Dev.napiDisable) (n := c.numRxq) h₀ ?_
  · intro q
    rw [napiDisableAll, hall q]
    simp
  · intro i hi t ht q
    rw [Dev.napiDisable, observe_of_concat (ht q), napiMonitor]
    by_cases hq : i = q
    · subst hq
      simp [hi]
    · have hiff : i ≤ q ↔ i + 1 ≤ q := by omega
      simp [hq, hiff]

theorem Held.logged {K : Set QueueId} {T : Set ℕ} {a : Action} (h : Held c K T s)
    (ha : ∀ k d, queueMonitor k d a = some d) : Held c K T { s with log := s.log ++ [a] } := by
  refine ⟨h.present, h.absent, h.pools, ?_⟩
  intro k
  obtain ⟨d, hd, hr⟩ := h.sound k
  exact ⟨d, (observe_of_concat hd).trans (ha k d), hr⟩

theorem Held.flagged {K : Set QueueId} {T : Set ℕ} (h : Held c K T s) (w r : Bool) :
    Held c K T { s with watchdogTask := w, running := r } :=
  ⟨h.present, h.absent, h.pools, h.sound⟩

structure Down (c : Setting) (s : Dev) : Prop where
  holding : Holding c ∅ ∅ s
  napi : Napi (fun _ ↦ false) s
  watchdog : s.watchdogTask = false

structure Up (c : Setting) (s : Dev) : Prop where
  holding : Holding c (Set.Iio c.numTxq) (Set.Iio c.numRxq) s
  napi : Napi (fun q ↦ decide (q < c.numRxq)) s
  watchdog : s.watchdogTask = true

theorem Up.stays (hn : 0 < c.numTxq) (h : Up c s) : Stays s := by
  obtain ⟨hr, hq, -⟩ := h.holding.present (.h2c, 0) hn
  exact ⟨hr, hq⟩

theorem Stays.down (h : Stays s) : Stays (down c s) := by
  have hnapi : Stays (napiDisableAll c { s with watchdogTask := false }) :=
    each_invariant h fun _ _ _ ↦ id
  exact each_invariant hnapi.freeAllTx fun _ _ _ ht ↦ ht.freeQueue

theorem kept_napi (p : ℕ → Bool) : Kept c (Napi p) :=
  ⟨fun _ _ h q ↦ (observe_ignores fun _ ↦ rfl).trans (h q),
    fun _ _ h q ↦ (observe_ignores fun _ ↦ rfl).trans (h q),
    fun _ _ h q ↦ (observe_ignores fun _ ↦ rfl).trans (h q), fun _ _ _ ↦ id, fun _ _ _ ↦ id⟩

theorem Kept.down {I : Dev → Prop} (h : Kept c I) (hn : ∀ t q, I t → I (t.napiDisable q))
    (hs : I { s with watchdogTask := false }) : I (down c s) :=
  h.freeAllRx (h.freeAllTx (each_invariant hs fun _ _ _ ↦ hn _ _))

theorem Up.down (h : Up c s) : Down c (down c s) ∧ (QdmaNet.down c s).running = s.running := by
  have hoff : Holding c (Set.Iio c.numTxq) (Set.Iio c.numRxq)
      (napiDisableAll c { s with watchdogTask := false }) :=
    each_invariant (h.holding.flagged false s.running) fun _ _ _ ht ↦ ht.logged fun _ _ ↦ rfl
  obtain ⟨hw, hr⟩ := (kept_flags fun w r ↦ w = false ∧ r = s.running).down (fun _ _ ↦ id) (s := s)
    (c := c) ⟨rfl, rfl⟩
  have hnapi : Napi (fun _ ↦ false) (napiDisableAll c { s with watchdogTask := false }) :=
    Napi.disableAll h.napi
  exact ⟨⟨hoff.freeAllTx.freeAllRx, (kept_napi _).freeAllRx ((kept_napi _).freeAllTx hnapi), hw⟩, hr⟩

theorem Kept.up {I : Dev → Prop} (h : Kept c I) (hn : ∀ t q, I t → I (t.napiEnable q))
    (hw : ∀ t, I t → I { t with watchdogTask := true }) (hs : I s) : I (up c o s).2 := by
  have htx : I (setupAllTxResources c o s).2 := h.setupAllTx hs
  have hrx : I (setupAllRxResources c o (setupAllTxResources c o s).2).2 := h.setupAllRx htx
  unfold QdmaNet.up
  dsimp only
  split
  case isTrue => exact htx
  case isFalse =>
    split
    case isTrue => exact h.freeAllTx hrx
    case isFalse => exact hw _ (each_invariant hrx fun _ _ _ ↦ hn _ _)

theorem up_running : (up c o s).2.running = s.running :=
  (kept_flags fun _ r ↦ r = s.running).up (fun _ _ ↦ id) (fun _ ↦ id) rfl

theorem Down.up_of_allSetUp (h : Down c s) (ha : AllSetUp c o) : Up c (up c o s).2 := by
  obtain ⟨htx, hrx, heq⟩ := QdmaNet.up_of_allSetUp (s := s) ha
  have hall := (h.holding.setupAllTx htx).setupAllRx hrx
  have hkept : Kept c (Napi fun _ ↦ false) := kept_napi _
  have hnapi := hkept.setupAllRx (o := o) (hkept.setupAllTx (o := o) h.napi)
  have hon : Holding c (Set.Iio c.numTxq) (Set.Iio c.numRxq) (napiEnableAll c _) :=
    each_invariant hall fun _ _ _ ht ↦ ht.logged fun _ _ ↦ rfl
  rw [heq]
  exact ⟨hon.flagged true _, Napi.enableAll hnapi, rfl⟩

theorem Down.up_of_failsFirst (hn : 0 < c.numTxq) (h : Down c s) (hf : FailsFirst c o s) :
    (up c o s).1 ≠ 0 ∧ Down c (up c o s).2 ∧ (up c o s).2.Clean := by
  obtain ⟨hne, heq⟩ := QdmaNet.up_of_failsFirst hn hf
  obtain ⟨hhold, hreg⟩ := h.holding.failsFirst hf
  have hflags := (kept_flags fun w _ ↦ w = false).setupTx (c := c) (o := o) (q := 0) h.watchdog
  refine ⟨hne, ?_⟩
  rw [heq]
  exact ⟨⟨hhold, (kept_napi _).setupTx h.napi, hflags⟩, hhold.clean hreg⟩

/-- Bringing up a device that is down keeps the balance with the outcomes of `UpOk` and no others. -/
theorem Down.up_iff (hn : 0 < c.numTxq) (h : Down c s) :
    (NapiAlternates (up c o s).2.log ∧ NoUseAfterDelete (up c o s).2.log ∧
      ((up c o s).1 ≠ 0 → (up c o s).2.Clean)) ↔ UpOk c o s := by
  constructor
  · rintro ⟨-, -, hclean⟩
    by_contra hbad
    have hne : (up c o s).1 ≠ 0 := fun hz ↦ hbad (.inl (up_eq_zero_iff.mp hz))
    exact (up_stays hn h.holding hbad).not_clean (hclean hne)
  · rintro (ha | hf)
    · have hup := h.up_of_allSetUp ha
      exact ⟨hup.napi.alternates, hup.holding.accepts, fun hne ↦ absurd (up_eq_zero_iff.mpr ha) hne⟩
    · obtain ⟨-, hdown, hclean⟩ := h.up_of_failsFirst hn hf
      exact ⟨hdown.napi.alternates, hdown.holding.accepts, fun _ ↦ hclean⟩

theorem Down.not_alternates (hn : 0 < c.numRxq) (h : Down c s) (hl : (down c s).log <+: l) :
    ¬NapiAlternates l := by
  have hoff : s.log ++ [.napiDisable 0] <+: (napiDisableAll c { s with watchdogTask := false }).log := by
    have hall := each_rule (P := fun i t ↦ s.log <+: t.log ∧
        (i = 0 → t.log = s.log) ∧ (0 < i → s.log ++ [.napiDisable 0] <+: t.log))
      (f := Dev.napiDisable) (n := c.numRxq) (s := { s with watchdogTask := false })
      ⟨List.prefix_rfl, fun _ ↦ rfl, nofun⟩ ?_
    · exact hall.2.2 hn
    · intro i _ t ⟨hp, h₀, hpos⟩
      refine ⟨hp.trans (List.prefix_append ..), nofun, fun _ ↦ ?_⟩
      rcases Nat.eq_zero_or_pos i with rfl | hi
      · rw [Dev.napiDisable, h₀ rfl]
      · exact (hpos hi).trans (List.prefix_append ..)
  have hdown : s.log ++ [.napiDisable 0] <+: (QdmaNet.down c s).log :=
    (kept_log _).freeAllRx ((kept_log _).freeAllTx hoff)
  intro ha
  have hacc := (ha 0).initial (hdown.trans hl)
  rw [Accepts, observe_of_concat (h.napi 0)] at hacc
  exact absurd hacc (by decide)

def Inv (c : Setting) (s : Dev) : Prop := (Up c s ∧ s.running = true) ∨ Down c s

theorem Down.init : Down c Dev.init := by
  refine ⟨⟨?_, fun k _ ↦ ⟨rfl, nofun⟩, fun q ↦ ⟨fun _ hq ↦ hq, fun _ ↦ rfl⟩, ?_⟩, fun _ ↦ rfl, rfl⟩
  · rintro ⟨t, q⟩ hk
    cases t <;> exact absurd hk fun h ↦ h
  · exact fun k ↦ ⟨false, rfl, fun _ ↦ rfl⟩

theorem failsFirst_down (hn : 0 < c.numTxq) (h : Up c s) :
    FailsFirst c o (QdmaNet.down c s) ↔ FailsFirst c o s := by
  have hst := h.stays hn
  rw [FailsFirst, FailsFirst, hst.1, hst.down.1]

theorem balanced_iff (htx : 0 < c.numTxq) (hrx : 0 < c.numRxq) (hs : Inv c s) {e : Event}
    (ha : Allowed s e) : Balanced c s e ↔ Tame c s e := by
  cases e with
  | ndoOpen o =>
    obtain ⟨-, hrun⟩ | hdown := hs
    · exact absurd (hrun.symm.trans ha) nofun
    · by_cases hdev : c.devHndl = 0
      · refine ⟨fun _ ↦ .inl hdev, fun _ ↦ ?_⟩
        rw [Balanced, step, netOpen, if_pos hdev, UpFails]
        exact ⟨hdown.napi.alternates, hdown.holding.accepts, fun h ↦ absurd hdev h.1⟩
      · rw [Balanced, step, netOpen, if_neg hdev, Tame, UpFails, or_iff_right hdev,
          ← hdown.up_iff htx, and_iff_right hdev]
        rfl
  | ndoStop =>
    obtain ⟨hup, -⟩ | hdown := hs
    · refine ⟨fun _ ↦ hup.watchdog, fun _ ↦ ?_⟩
      have hdown := hup.down.1
      exact ⟨hdown.napi.alternates, hdown.holding.accepts, False.elim⟩
    · refine ⟨fun h ↦ absurd h.1 (hdown.not_alternates hrx List.prefix_rfl), fun h ↦ ?_⟩
      exact absurd (hdown.watchdog.symm.trans h) Bool.false_ne_true
  | resetTask o =>
    by_cases hrun : s.running = true
    · rw [Balanced, step, resetTask, if_pos hrun, Tame, UpFails, and_iff_right hrun,
        imp_iff_right hrun]
      obtain ⟨hup, -⟩ | hdown := hs
      · rw [and_iff_right hup.watchdog, UpOk, ← failsFirst_down htx hup, ← UpOk,
          ← hup.down.1.up_iff htx]
        rfl
      · constructor
        · intro h
          have hgrow : (QdmaNet.down c s).log <+: (up c o (QdmaNet.down c s)).2.log :=
            (kept_log _).up (fun _ _ h ↦ h.trans (List.prefix_append ..)) (fun _ ↦ id) List.prefix_rfl
          exact absurd h.1 (hdown.not_alternates hrx hgrow)
        · intro h
          exact absurd (hdown.watchdog.symm.trans h.1) Bool.false_ne_true
    · refine ⟨fun _ h ↦ absurd h hrun, fun _ ↦ ?_⟩
      rw [Balanced, step, resetTask, if_neg hrun, UpFails]
      obtain ⟨-, hrun'⟩ | hdown := hs
      · exact absurd hrun' hrun
      · exact ⟨hdown.napi.alternates, hdown.holding.accepts, fun h ↦ absurd h.1 hrun⟩

theorem Down.flagged (h : Down c s) (r : Bool) : Down c { s with running := r } :=
  ⟨h.holding.flagged s.watchdogTask r, h.napi, h.watchdog⟩

theorem Down.up_inv (hn : 0 < c.numTxq) (h : Down c s) (ho : UpOk c o s) :
    (up c o s).1 = 0 ∧ Up c (up c o s).2 ∨ (up c o s).1 ≠ 0 ∧ Down c (up c o s).2 := by
  obtain ha | hf := ho
  · exact .inl ⟨up_eq_zero_iff.mpr ha, h.up_of_allSetUp ha⟩
  · obtain ⟨hne, hdown, -⟩ := h.up_of_failsFirst hn hf
    exact .inr ⟨hne, hdown⟩

theorem inv_step (htx : 0 < c.numTxq) (hs : Inv c s) {e : Event} (ha : Allowed s e)
    (ht : Tame c s e) : Inv c (step c s e) := by
  cases e with
  | ndoOpen o =>
    obtain ⟨-, hrun⟩ | hdown := hs
    · exact absurd (hrun.symm.trans ha) nofun
    · rw [step, netOpen]
      obtain hdev | ho := ht
      · rw [if_pos hdev]
        exact .inr (hdown.flagged _)
      · split
        case isTrue => exact .inr (hdown.flagged _)
        case isFalse =>
          obtain ⟨hz, hup⟩ | ⟨-, hdown⟩ := hdown.up_inv htx ho
          · exact .inl ⟨⟨hup.holding.flagged _ _, hup.napi, hup.watchdog⟩, decide_eq_true hz⟩
          · exact .inr (hdown.flagged _)
  | ndoStop =>
    obtain ⟨hup, -⟩ | hdown := hs
    · exact .inr (hup.down.1.flagged false)
    · exact absurd (hdown.watchdog.symm.trans ht) nofun
  | resetTask o =>
    rw [step, resetTask]
    split
    case isTrue hrun =>
      obtain ⟨hw, ho⟩ := ht hrun
      obtain ⟨hup, -⟩ | hdown := hs
      · have hok : UpOk c o (QdmaNet.down c s) := by rwa [UpOk, failsFirst_down htx hup]
        obtain ⟨-, hup'⟩ | ⟨-, hdown'⟩ := hup.down.1.up_inv htx hok
        · exact .inl ⟨hup', up_running.trans (hup.down.2.trans hrun)⟩
        · exact .inr hdown'
      · exact absurd (hdown.watchdog.symm.trans hw) nofun
    case isFalse => exact hs

/-- The calls of a run are balanced exactly if the device is never stopped or reset while its last
bring-up has failed, and no bring-up fails other than in the way of `FailsFirst`. -/
theorem lifecycle_balanced_iff (htx : 0 < c.numTxq) (hrx : 0 < c.numRxq) {es : List Event}
    (ha : Every (step c) Dev.init Allowed es) :
    Every (step c) Dev.init (Balanced c) es ↔ Every (step c) Dev.init (Tame c) es :=
  every_iff (I := Inv c) (.inr Down.init) (fun _ _ hs ha ↦ balanced_iff htx hrx hs ha)
    (fun _ _ hs ha ht ↦ inv_step htx hs ha ht) ha

/-- `QDMA_NET_TXQ_CNT` and `QDMA_NET_RXQ_CNT` on a device with 8 queues of each direction. -/
def oneQueuePair : Setting := ⟨1, 1, 8, 1000, 1⟩

def rxRefused : Outcome :=
  ⟨fun _ _ ↦ some 4096, fun k ↦ if k.1 = .c2h then -EINVAL else 0, fun _ ↦ true, fun _ ↦ 0, fun _ ↦ 0⟩

def allWell : Outcome :=
  ⟨fun _ _ ↦ some 4096, fun _ ↦ 0, fun _ ↦ true, fun _ ↦ 0, fun _ ↦ 0⟩

theorem allSetUp_allWell : AllSetUp oneQueuePair allWell := by
  have hadded : ∀ k : QueueId, k.2 < 1 → Added oneQueuePair allWell k := fun k hk ↦
    ⟨hk.trans (by decide), le_rfl⟩
  exact ⟨fun q hq ↦ ⟨⟨_, rfl⟩, hadded (.h2c, q) hq, rfl, le_rfl, le_rfl⟩,
    fun q hq ↦ ⟨hadded (.c2h, q) hq, rfl, le_rfl, le_rfl⟩⟩

theorem every_openResetStop {P : Dev → Event → Prop} {s : Dev} :
    Every (step c) s P [.ndoOpen o, .resetTask o, .ndoStop] ↔
      P s (.ndoOpen o) ∧ P (step c s (.ndoOpen o)) (.resetTask o) ∧
        P (step c (step c s (.ndoOpen o)) (.resetTask o)) .ndoStop := by
  change Every (step c) s P ([.ndoOpen o] ++ [.resetTask o] ++ [.ndoStop]) ↔ _
  rw [every_concat, every_concat, every_singleton, and_assoc]
  rfl

theorem lifecycle_balanced_stop : Every (step oneQueuePair) Dev.init (Balanced oneQueuePair)
    [.ndoOpen allWell, .resetTask allWell, .ndoStop] := by
  refine (lifecycle_balanced_iff (by decide) (by decide) ?_).mpr ?_
  · exact every_openResetStop.mpr ⟨rfl, trivial, rfl⟩
  · exact every_openResetStop.mpr
      ⟨.inr (.inl allSetUp_allWell), fun _ ↦ ⟨rfl, .inl allSetUp_allWell⟩, rfl⟩

theorem open_leaves_queue : ¬∀ c es, 0 < c.numTxq → 0 < c.numRxq →
    Every (step c) Dev.init Allowed es → Every (step c) Dev.init (Balanced c) es := by
  intro h
  have hrun : Every (step oneQueuePair) Dev.init Allowed [.ndoOpen rxRefused] :=
    every_singleton.mpr rfl
  obtain ⟨-, -, hclean⟩ := every_singleton.mp (h oneQueuePair _ (by decide) (by decide) hrun)
  have hreg := (hclean ⟨by decide, by decide⟩).1 (.h2c, 0)
  exact absurd hreg (by decide)

end QdmaTrafficGen.QdmaNet
