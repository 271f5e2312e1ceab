import Mathlib.Data.List.Pairwise
import QdmaTrafficGen.QueueRanges

open Ranges

namespace QdmaTrafficGen.ResourceMgmt

inductive Call
  | entryCreate (funcId : ℕ)
  | entryDestroy (funcId : ℕ)
  | update (funcId qmax : ℕ) (qbase : ℤ)
  | increment (funcId : ℕ) (qType : DevQType)
  | decrement (funcId : ℕ) (qType : DevQType)

namespace Call

/-- The last queue that is asked for fits into an `uint32_t`. -/
def InRange : Call → Prop
  | .update _ qmax qbase => qbase + qmax < 2 ^ 32
  | _ => True

instance : DecidablePred InRange
  | .update _ qmax qbase => inferInstanceAs (Decidable (qbase + qmax < 2 ^ 32))
  | .entryCreate _ | .entryDestroy _ | .increment _ _ | .decrement _ _ =>
    inferInstanceAs (Decidable True)

end Call

def devQueues (l : List DevEntry) : List ℤ := l.flatMap fun d ↦ d.entry.queues

namespace ResourceMaster

/-- A call, with what becomes of the memory that it asks for. -/
def step (m : ResourceMaster) : Call × List Bool → ResourceMaster
  | (.entryCreate f, mem) => (m.devEntryCreate f mem).2
  | (.entryDestroy f, mem) => m.devEntryDestroy f mem
  | (.update f qmax qbase, mem) => (m.devUpdate f qmax qbase mem).2
  | (.increment f ty, _) => (m.devIncrementActiveQueue f ty).2
  | (.decrement f ty, _) => (m.devDecrementActiveQueue f ty).2

def run (m : ResourceMaster) (calls : List (Call × List Bool)) : ResourceMaster := calls.foldl step m

def queues (m : ResourceMaster) : List ℤ := devQueues m.devList ++ freeQueues m.freeList

def range (m : ResourceMaster) : Extent := ⟨m.qbase, m.totalQ⟩

/-- What holds of the entries whatever is asked for. -/
structure Counts (m : ResourceMaster) : Prop where
  ids : (m.devList.map DevEntry.funcId).Nodup
  counts : ∀ d ∈ m.devList, ∀ ty n, d.activeQcnt ty = some n → n ≤ d.entry.totalQ

/-- What holds of the ranges as long as no update asks for one beyond an `uint32_t`. -/
structure Placed (m : ResourceMaster) : Prop where
  free : FreeIn m.qbase (m.qbase + m.totalQ) m.freeList
  le : ∀ d ∈ m.devList, -1 ≤ d.entry.qbase ∧ d.entry.qbase + d.entry.totalQ ≤ m.qbase + m.totalQ
  start : ∀ d ∈ m.devList, d.entry.totalQ ≠ 0 → m.qbase ≤ d.entry.qbase
  lost : ∃ lost, (m.queues ++ lost).Perm m.range.cells

structure Inv (m : ResourceMaster) : Prop extends Counts m, Placed m

variable {m : ResourceMaster} {d d' : DevEntry} {f : ℕ} {l₁ l₂ : List DevEntry} {F : List ℤ}

theorem getDevEntry_eq_some (h : m.getDevEntry f = some d) :
    d ∈ m.devList ∧ d.funcId = f :=
  ⟨List.mem_of_find?_eq_some h, by simpa using List.find?_some h⟩

theorem eraseP_append_cons (hd : d.funcId = f) (h : ∀ x ∈ l₁, x.funcId ≠ f) :
    (l₁ ++ d :: l₂).eraseP (fun x ↦ x.funcId = f) = l₁ ++ l₂ := by
  rw [List.eraseP_append_right _ (by simpa using h), List.eraseP_cons_of_pos (by simpa using hd)]

theorem exists_split (hids : (m.devList.map DevEntry.funcId).Nodup) (h : m.getDevEntry f = some d) :
    ∃ l₁ l₂, m.devList = l₁ ++ d :: l₂ ∧ d.funcId = f ∧
      m.devList.eraseP (fun x ↦ x.funcId = f) = l₁ ++ l₂ ∧
      ∀ d', d'.funcId = f → (m.putDevEntry d').devList = l₁ ++ d' :: l₂ := by
  obtain ⟨hmem, hf⟩ := getDevEntry_eq_some h
  obtain ⟨l₁, l₂, hl⟩ := List.append_of_mem hmem
  have hne : ∀ x ∈ l₁ ++ l₂, x.funcId ≠ f := by
    rw [hl, List.map_append, List.map_cons] at hids
    intro x hx hxf
    refine (List.nodup_middle.1 hids).notMem ?_
    rw [hf, ← hxf, ← List.map_append]
    exact List.mem_map_of_mem hx
  refine ⟨l₁, l₂, hl, hf, ?_, fun d' hd' ↦ ?_⟩
  · rw [hl]
    exact eraseP_append_cons hf fun x hx ↦ hne x (List.mem_append_left _ hx)
  · have hmap : ∀ l : List DevEntry, (∀ x ∈ l, x.funcId ≠ f) →
        l.map (fun x ↦ if x.funcId = d'.funcId then d' else x) = l := by
      intro l hl
      refine (List.map_congr_left fun x hx ↦ ?_).trans (List.map_id l)
      exact if_neg (hd'.symm ▸ hl x hx)
    rw [putDevEntry]
    simp only [hl, List.map_append, List.map_cons]
    rw [hmap l₁ fun x hx ↦ hne x (List.mem_append_left _ hx),
      hmap l₂ fun x hx ↦ hne x (List.mem_append_right _ hx), if_pos (by rw [hf, hd'])]

theorem putDevEntry_ids (m : ResourceMaster) (d' : DevEntry) :
    (m.putDevEntry d').devList.map DevEntry.funcId = m.devList.map DevEntry.funcId := by
  rw [putDevEntry, List.map_map]
  refine List.map_congr_left fun x _ ↦ ?_
  simp only [Function.comp_apply]
  split
  next h => exact h.symm
  next => rfl

theorem setActiveQcnt_entry (d : DevEntry) (n : ℕ) (ty : DevQType) :
    (d.setActiveQcnt n ty).entry = d.entry := by
  cases ty <;> rfl

theorem setActiveQcnt_funcId (d : DevEntry) (n : ℕ) (ty : DevQType) :
    (d.setActiveQcnt n ty).funcId = d.funcId := by
  cases ty <;> rfl

theorem activeQcnt_setActiveQcnt (d : DevEntry) (n : ℕ) (ty ty' : DevQType) :
    (d.setActiveQcnt n ty).activeQcnt ty' =
      if ty' = ty then (d.activeQcnt ty').map fun _ ↦ n else d.activeQcnt ty' := by
  cases ty <;> cases ty' <;> rfl

theorem counts_setActiveQcnt {c N : ℕ} (ty : DevQType)
    (h : ∀ ty n, d.activeQcnt ty = some n → n ≤ N) (hc : c ≤ N) :
    ∀ ty' n, (d.setActiveQcnt c ty).activeQcnt ty' = some n → n ≤ N := by
  intro ty' n hn
  rw [activeQcnt_setActiveQcnt] at hn
  split at hn
  · obtain ⟨-, -, rfl⟩ := Option.map_eq_some_iff.1 hn
    exact hc
  · exact h ty' n hn

namespace Counts

theorem put (h : m.Counts) (d' : DevEntry)
    (hd' : ∀ ty n, d'.activeQcnt ty = some n → n ≤ d'.entry.totalQ) :
    (m.putDevEntry d').Counts := by
  refine ⟨putDevEntry_ids m d' ▸ h.ids, fun x hx ↦ ?_⟩
  obtain ⟨y, hy, rfl⟩ := List.mem_map.1 hx
  split
  · exact hd'
  · exact h.counts y hy

theorem entryCreate (h : m.Counts) (hd : m.getDevEntry f = none) :
    Counts { m with devList := m.devList ++ [⟨f, 0, 0, 0, .none⟩] } := by
  have hnew : f ∉ m.devList.map DevEntry.funcId := by
    intro hf
    obtain ⟨x, hx, hxf⟩ := List.mem_map.1 hf
    exact absurd (List.find?_eq_none.1 hd x hx) (by simpa using hxf)
  refine ⟨?_, fun x hx ↦ ?_⟩
  · rw [List.map_append]
    exact List.nodup_append.2 ⟨h.ids, List.nodup_singleton _, fun a ha b hb ↦ by
      obtain rfl := List.mem_singleton.1 hb
      rintro rfl
      exact hnew ha⟩
  · rcases List.mem_append.1 hx with hx | hx
    · exact h.counts x hx
    · obtain rfl := List.mem_singleton.1 hx
      intro ty n hn
      cases ty <;> cases hn <;> exact le_rfl

theorem step (h : m.Counts) (c : Call × List Bool) : (m.step c).Counts := by
  obtain ⟨c, mem⟩ := c
  cases c with
  | entryCreate f =>
    rw [ResourceMaster.step, devEntryCreate]
    split
    next hd =>
      split
      · exact h
      · exact h.entryCreate hd
    next => exact h
  | entryDestroy f =>
    rw [ResourceMaster.step, devEntryDestroy]
    split
    next => exact h
    next =>
      have hsub := List.eraseP_sublist (p := fun x : DevEntry ↦ x.funcId = f) (l := m.devList)
      exact ⟨h.ids.sublist (hsub.map _), fun x hx ↦ h.counts x (hsub.subset hx)⟩
  | update f qmax qbase =>
    rw [ResourceMaster.step, devUpdate]
    split
    next => exact h
    next d hd =>
      dsimp only
      split
      · exact h
      next hact =>
        obtain ⟨hids, hcounts⟩ := h.put { d with entry :=
          (requestQResource d.entry qmax qbase m.freeList mem).2.1 } fun ty n hn ↦ by
            cases ty <;> cases hn <;> exact le_of_eq_of_le (by tauto) (Nat.zero_le _)
        exact ⟨hids, hcounts⟩
  | increment f ty =>
    rw [ResourceMaster.step, devIncrementActiveQueue]
    split
    next => exact h
    next d hd =>
      dsimp only
      split
      · exact h
      · split
        · exact h
        next cnt hcnt hlt =>
          have hd := h.counts d (getDevEntry_eq_some hd).1
          obtain ⟨hids, hcounts⟩ := h.put (d.setActiveQcnt (u32 (cnt + 1)) ty)
            (setActiveQcnt_entry d _ ty ▸ counts_setActiveQcnt ty hd (not_lt.1 hlt))
          exact ⟨hids, hcounts⟩
  | decrement f ty =>
    rw [ResourceMaster.step, devDecrementActiveQueue]
    split
    next => exact h
    next d hd =>
      dsimp only
      split
      · exact ⟨h.ids, h.counts⟩
      next cnt hcnt =>
        have hd := h.counts d (getDevEntry_eq_some hd).1
        have hle : (if cnt ≠ 0 then cnt - 1 else cnt) ≤ d.entry.totalQ := by
          have hc := hd ty cnt hcnt
          split <;> omega
        obtain ⟨hids, hcounts⟩ := h.put (d.setActiveQcnt (if cnt ≠ 0 then cnt - 1 else cnt) ty)
          (setActiveQcnt_entry d _ ty ▸ counts_setActiveQcnt ty hd hle)
        exact ⟨hids, hcounts⟩

end Counts

theorem perm_devQueues : (devQueues (l₁ ++ d :: l₂) ++ F).Perm
    (d.entry.queues ++ F ++ devQueues (l₁ ++ l₂)) := by
  simp only [devQueues, List.flatMap_append, List.flatMap_cons, List.append_assoc]
  refine (List.perm_append_comm_assoc _ _ _).trans (.append_left _ ?_)
  rw [← List.append_assoc]
  exact List.perm_append_comm

/-- From `m` to `m'` queues are lost, if at all, for want of memory. -/
def Loses (m m' : ResourceMaster) (mem : List Bool) : Prop :=
  ∃ lost, (m'.queues ++ lost).Perm m.queues ∧ (false ∉ mem → lost = [])

theorem Loses.refl (m : ResourceMaster) (mem : List Bool) : Loses m m mem :=
  ⟨[], by rw [List.append_nil], fun _ ↦ rfl⟩

theorem Loses.of_entry {m' : ResourceMaster} {mem : List Bool} (hl : m.devList = l₁ ++ d :: l₂)
    (hl' : m'.devList = l₁ ++ d' :: l₂)
    (h : ∃ lost, (d'.entry.queues ++ freeQueues m'.freeList ++ lost).Perm
      (d.entry.queues ++ freeQueues m.freeList) ∧ (false ∉ mem → lost = [])) :
    Loses m m' mem := by
  obtain ⟨lost, hp, hm⟩ := h
  refine ⟨lost, ?_, hm⟩
  rw [queues, queues, hl, hl']
  refine .trans ?_ (((hp.append_right (devQueues (l₁ ++ l₂)))).trans perm_devQueues.symm)
  refine (perm_devQueues.append_right lost).trans ?_
  rw [List.append_assoc, List.append_assoc (_ ++ _) lost]
  exact .append_left _ List.perm_append_comm

namespace Placed

theorem nodup (h : m.Placed) : m.queues.Nodup := by
  obtain ⟨lost, hp⟩ := h.lost
  exact (List.nodup_append.1 ((hp.nodup_iff).2 (Extent.nodup_cells _))).1

theorem owned (h : m.Placed) (hd : d ∈ m.devList) :
    Owned m.qbase (m.qbase + m.totalQ) m.freeList d.entry where
  le := h.le d hd
  start := h.start d hd
  disjoint z hz hz' :=
    (List.nodup_append.1 h.nodup).2.2 z (List.mem_flatMap.2 ⟨d, hd, hz⟩) z hz' rfl

theorem of_loses {m' : ResourceMaster} {mem : List Bool} (h : m.Placed) (hl : Loses m m' mem)
    (hr : m'.range = m.range) (hfree : FreeIn m.qbase (m.qbase + m.totalQ) m'.freeList)
    (hdev : ∀ d ∈ m'.devList, d ∈ m.devList ∨
      (-1 ≤ d.entry.qbase ∧ d.entry.qbase + d.entry.totalQ ≤ m.qbase + m.totalQ) ∧
      (d.entry.totalQ ≠ 0 → m.qbase ≤ d.entry.qbase)) : m'.Placed := by
  obtain ⟨hb, ht⟩ := Extent.mk.inj hr
  constructor
  · rwa [hb, ht]
  · intro d hd
    rw [hb, ht]
    exact (hdev d hd).elim (h.le d) (·.1)
  · intro d hd
    rw [hb]
    exact (hdev d hd).elim (h.start d) (·.2)
  · obtain ⟨lost, hp⟩ := h.lost
    obtain ⟨lost', hp', -⟩ := hl
    refine ⟨lost' ++ lost, ?_⟩
    rw [hr, ← List.append_assoc]
    exact (hp'.append_right lost).trans hp

theorem of_entry {m' : ResourceMaster} {mem : List Bool} (h : m.Placed)
    (hl : m.devList = l₁ ++ d :: l₂) (hl' : m'.devList = l₁ ++ d' :: l₂)
    (hr : m'.range = m.range)
    (hfree : FreeIn m.qbase (m.qbase + m.totalQ) m'.freeList)
    (hle : -1 ≤ d'.entry.qbase ∧ d'.entry.qbase + d'.entry.totalQ ≤ m.qbase + m.totalQ)
    (hstart : d'.entry.totalQ ≠ 0 → m.qbase ≤ d'.entry.qbase)
    (hlost : ∃ lost, (d'.entry.queues ++ freeQueues m'.freeList ++ lost).Perm
      (d.entry.queues ++ freeQueues m.freeList) ∧ (false ∉ mem → lost = [])) :
    m'.Placed ∧ Loses m m' mem := by
  have hloses := Loses.of_entry hl hl' hlost
  refine ⟨h.of_loses hloses hr hfree fun x hx ↦ ?_, hloses⟩
  rw [hl'] at hx
  rcases List.mem_append.1 hx with hx | hx
  · exact .inl (hl ▸ List.mem_append_left _ hx)
  · rcases List.mem_cons.1 hx with rfl | hx
    · exact .inr ⟨hle, hstart⟩
    · exact .inl (hl ▸ List.mem_append_right _ (.tail _ hx))

end Placed

theorem create_counts (b : ℤ) (n : ℕ) : (masterResourceCreate b n).Counts where
  ids := .nil
  counts _ hd := by cases hd

theorem create_inv {b : ℤ} {n : ℕ} (hb : 0 ≤ b) (hn : 0 < n) (hle : b + n ≤ 2 ^ 31) :
    (masterResourceCreate b n).Inv where
  toCounts := create_counts b n
  free := by
    refine ⟨⟨fun e he ↦ ?_, fun e he ↦ ?_, List.pairwise_singleton _ _⟩, hb, ?_, hle⟩
    · rw [List.mem_singleton.1 he]
      exact ⟨le_rfl, le_rfl⟩
    · rw [List.mem_singleton.1 he]
      exact hn
    · change b ≤ b + n
      omega
  le _ hd := by cases hd
  start _ hd := by cases hd
  lost := ⟨[], by simp [queues, masterResourceCreate, devQueues, freeQueues, extents, range,
    ResourceEntry.extent]⟩

theorem placed_devEntryCreate (h : m.Placed) (f : ℕ) (mem : List Bool) :
    (m.devEntryCreate f mem).2.Placed ∧ Loses m (m.devEntryCreate f mem).2 mem := by
  have hkeep : m.Placed ∧ Loses m m mem := ⟨h, .refl m mem⟩
  rw [devEntryCreate]
  rcases hd : m.getDevEntry f with _ | d
  · dsimp only
    by_cases hc : (qdmaCalloc mem).1 = true
    · rw [if_neg (by simpa using hc)]
      have hl : Loses m { m with devList := m.devList ++ [⟨f, 0, 0, 0, .none⟩] } mem := by
        refine ⟨[], ?_, fun _ ↦ rfl⟩
        simp [queues, devQueues, ResourceEntry.none, ResourceEntry.queues, ResourceEntry.extent,
          Extent.cells]
      refine ⟨h.of_loses hl rfl h.free fun x hx ↦ ?_, hl⟩
      rcases List.mem_append.1 hx with hx | hx
      · exact .inl hx
      · obtain rfl := List.mem_singleton.1 hx
        have hfree := h.free.nonneg
        refine .inr ⟨⟨le_rfl, ?_⟩, fun hne ↦ absurd rfl hne⟩
        simp only [ResourceEntry.none]
        omega
    · rw [if_pos (by simpa using hc)]
      exact hkeep
  · exact hkeep

theorem placed_devEntryDestroy (h : m.Inv) (f : ℕ) (mem : List Bool) :
    (m.devEntryDestroy f mem).Placed ∧ Loses m (m.devEntryDestroy f mem) mem := by
  rw [devEntryDestroy]
  rcases hd : m.getDevEntry f with _ | d
  · exact ⟨h.toPlaced, .refl m mem⟩
  obtain ⟨l₁, l₂, hl, -, herase, -⟩ := exists_split h.ids hd
  have hsub := submitToFreeList_spec mem h.free (h.owned (getDevEntry_eq_some hd).1)
  dsimp only
  rw [herase]
  have hloses : Loses m { m with
      freeList := (submitToFreeList d.entry m.freeList mem).2.1, devList := l₁ ++ l₂ } mem := by
    refine ⟨(submitToFreeList d.entry m.freeList mem).1.queues, ?_, fun hm ↦ ?_⟩
    · rw [queues, queues, hl]
      refine .trans ?_ ((hsub.perm.append_right (devQueues (l₁ ++ l₂))).trans perm_devQueues.symm)
      rw [List.append_assoc]
      refine List.perm_append_comm.trans ?_
      exact List.perm_append_comm.append_right _
    · rcases hsub.outcome with ⟨he, -, h0 | hm'⟩ | ⟨he, -⟩
      · rw [he, queues_of_totalQ_eq_zero h0]
      · exact absurd hm' hm
      · rw [he]
        rfl
  refine ⟨h.of_loses hloses rfl hsub.freeIn fun x hx ↦ .inl ?_, hloses⟩
  rw [hl]
  rcases List.mem_append.1 hx with hx | hx
  · exact List.mem_append_left _ hx
  · exact List.mem_append_right _ (.tail _ hx)

theorem placed_devUpdate (h : m.Inv) (f qmax : ℕ) {qbase : ℤ} (hq : qbase + qmax < 2 ^ 32)
    (mem : List Bool) :
    (m.devUpdate f qmax qbase mem).2.Placed ∧ Loses m (m.devUpdate f qmax qbase mem).2 mem := by
  have hkeep : m.Placed ∧ Loses m m mem := ⟨h.toPlaced, .refl m mem⟩
  rw [devUpdate]
  rcases hd : m.getDevEntry f with _ | d
  · exact hkeep
  dsimp only
  split
  · exact hkeep
  next hact =>
    obtain ⟨l₁, l₂, hl, hf, -, hput⟩ := exists_split h.ids hd
    have hreq := requestQResource_spec mem h.free (h.owned (getDevEntry_eq_some hd).1) hq
    exact h.of_entry hl (hput _ hf) rfl hreq.freeIn hreq.le hreq.start hreq.perm

theorem placed_of_entry (m' : ResourceMaster) (h : m.Inv) (hd : m.getDevEntry f = some d)
    (hf : d'.funcId = f) (he : d'.entry = d.entry) (hm : m'.devList = (m.putDevEntry d').devList)
    (hfree : m'.freeList = m.freeList) (hr : m'.range = m.range) (mem : List Bool) :
    m'.Placed ∧ Loses m m' mem := by
  obtain ⟨l₁, l₂, hl, hf', -, hput⟩ := exists_split h.ids hd
  have hmem := (getDevEntry_eq_some hd).1
  refine h.of_entry hl (hm.trans (hput d' hf)) hr (hfree ▸ h.free) ?_ ?_ ?_
  · exact he ▸ h.le d hmem
  · exact he ▸ h.start d hmem
  · exact ⟨[], by rw [he, hfree, List.append_nil], fun _ ↦ rfl⟩

theorem placed_devIncrement (h : m.Inv) (f : ℕ) (ty : DevQType) (mem : List Bool) :
    (m.devIncrementActiveQueue f ty).2.Placed ∧
      Loses m (m.devIncrementActiveQueue f ty).2 mem := by
  have hkeep : m.Placed ∧ Loses m m mem := ⟨h.toPlaced, .refl m mem⟩
  rw [devIncrementActiveQueue]
  rcases hd : m.getDevEntry f with _ | d
  · exact hkeep
  dsimp only
  split
  · exact hkeep
  split
  · exact hkeep
  · exact placed_of_entry (Prod.snd _) h hd
      ((setActiveQcnt_funcId _ _ _).trans (getDevEntry_eq_some hd).2) (setActiveQcnt_entry _ _ _)
      rfl rfl rfl mem

theorem placed_devDecrement (h : m.Inv) (f : ℕ) (ty : DevQType) (mem : List Bool) :
    (m.devDecrementActiveQueue f ty).2.Placed ∧
      Loses m (m.devDecrementActiveQueue f ty).2 mem := by
  rw [devDecrementActiveQueue]
  rcases hd : m.getDevEntry f with _ | d
  · exact ⟨h.toPlaced, .refl m mem⟩
  dsimp only
  split
  · exact ⟨⟨h.free, h.le, h.start, h.lost⟩, .refl m mem⟩
  · exact placed_of_entry (Prod.snd _) h hd
      ((setActiveQcnt_funcId _ _ _).trans (getDevEntry_eq_some hd).2) (setActiveQcnt_entry _ _ _)
      rfl rfl rfl mem

theorem inv_step (h : m.Inv) {c : Call × List Bool} (hc : c.1.InRange) :
    (m.step c).Inv ∧ Loses m (m.step c) c.2 := by
  suffices hp : (m.step c).Placed ∧ Loses m (m.step c) c.2 from ⟨⟨h.toCounts.step c, hp.1⟩, hp.2⟩
  obtain ⟨c, mem⟩ := c
  cases c with
  | entryCreate f => exact placed_devEntryCreate h.toPlaced f mem
  | entryDestroy f => exact placed_devEntryDestroy h f mem
  | update f qmax qbase => exact placed_devUpdate h f qmax hc mem
  | increment f ty => exact placed_devIncrement h f ty mem
  | decrement f ty => exact placed_devDecrement h f ty mem

theorem inv_run (h : m.Inv) {calls : List (Call × List Bool)} (hc : ∀ c ∈ calls, c.1.InRange) :
    (m.run calls).Inv := by
  induction calls generalizing m with
  | nil => exact h
  | cons c calls ih =>
    exact ih (inv_step h (hc c List.mem_cons_self)).1 fun x hx ↦ hc x (.tail _ hx)

theorem loses_run (h : m.Inv) {calls : List (Call × List Bool)} (hc : ∀ c ∈ calls, c.1.InRange)
    (hm : ∀ c ∈ calls, false ∉ c.2) : (m.run calls).queues.Perm m.queues := by
  induction calls generalizing m with
  | nil => exact .refl _
  | cons c calls ih =>
    obtain ⟨hinv, lost, hp, hlost⟩ := inv_step h (hc c List.mem_cons_self)
    rw [hlost (hm c List.mem_cons_self), List.append_nil] at hp
    exact (ih hinv (fun x hx ↦ hc x (.tail _ hx)) fun x hx ↦ hm x (.tail _ hx)).trans hp

theorem step_range (m : ResourceMaster) (c : Call × List Bool) : (m.step c).range = m.range := by
  obtain ⟨c, mem⟩ := c
  cases c with
  | entryCreate f =>
    rw [step, devEntryCreate]
    split
    · split <;> rfl
    · rfl
  | entryDestroy f =>
    rw [step, devEntryDestroy]
    split <;> rfl
  | update f qmax qbase =>
    rw [step, devUpdate]
    split
    · rfl
    · dsimp only
      split <;> rfl
  | increment f ty =>
    rw [step, devIncrementActiveQueue]
    split
    · rfl
    · dsimp only
      split
      · rfl
      · split <;> rfl
  | decrement f ty =>
    rw [step, devDecrementActiveQueue]
    split
    · rfl
    · dsimp only
      split <;> rfl

theorem run_range (m : ResourceMaster) (calls : List (Call × List Bool)) :
    (m.run calls).range = m.range := by
  induction calls generalizing m with
  | nil => rfl
  | cons c calls ih => exact (ih _).trans (step_range m c)

theorem mem_queues_of_inRange (h : m.Inv) {q : ℕ} (hq : q < 2 ^ 32)
    (hr : m.devIsQueueInRange f q = true) :
    ∃ d ∈ m.devList, d.funcId = f ∧ (q : ℤ) ∈ d.entry.queues := by
  rw [devIsQueueInRange] at hr
  rcases hd : m.getDevEntry f with _ | d
  · rw [hd] at hr
    cases hr
  · obtain ⟨hmem, hf⟩ := getDevEntry_eq_some hd
    rw [hd] at hr
    simp only [ne_eq, Bool.and_eq_true, decide_eq_true_eq] at hr
    obtain ⟨⟨h0, hlt⟩, hge⟩ := hr
    have hs := h.start d hmem h0
    have hle := (h.le d hmem).2
    have hb := h.free.nonneg
    have ht := h.free.le
    have hu : (u32 (d.entry.qbase + d.entry.totalQ) : ℤ) = d.entry.qbase + d.entry.totalQ :=
      u32_of_lt (by omega) (by omega)
    have hs32 : s32 q = q := s32_of_lt (by omega) (by omega)
    exact ⟨d, hmem, hf, Extent.mem_cells.2 ⟨hs32 ▸ hge, by
      simp only [ResourceEntry.extent, Extent.stop]
      omega⟩⟩

/-- Whatever becomes of the memory that is asked for, no queue is ever free and in use, or in use by
two functions, and none outside the range of the device is. -/
theorem queues_disjoint {b : ℤ} {n : ℕ} (hb : 0 ≤ b) (hn : 0 < n) (hle : b + n ≤ 2 ^ 31)
    {calls : List (Call × List Bool)} (hc : ∀ c ∈ calls, c.1.InRange) :
    ((masterResourceCreate b n).run calls).queues.Nodup ∧
    (∀ z ∈ ((masterResourceCreate b n).run calls).queues, b ≤ z ∧ z < b + n) ∧
    ∀ f g q, q < 2 ^ 32 → f ≠ g →
      ((masterResourceCreate b n).run calls).devIsQueueInRange f q = true →
      ((masterResourceCreate b n).run calls).devIsQueueInRange g q = false := by
  have h := inv_run (create_inv hb hn hle) hc
  have hr := run_range (masterResourceCreate b n) calls
  refine ⟨h.nodup, fun z hz ↦ ?_, fun f g q hq hfg hf ↦ ?_⟩
  · obtain ⟨lost, hp⟩ := h.lost
    rw [hr] at hp
    exact Extent.mem_cells.1 (hp.mem_iff.1 (List.mem_append_left _ hz))
  · by_contra hg
    obtain ⟨d, hd, rfl, hqd⟩ := mem_queues_of_inRange h hq hf
    obtain ⟨d', hd', rfl, hqd'⟩ := mem_queues_of_inRange h hq (Bool.not_eq_false _ ▸ hg)
    have hpair := (List.nodup_flatMap.1 (List.nodup_append.1 h.nodup).1).2
    have hsymm : Std.Symm (Function.onFun List.Disjoint fun d : DevEntry ↦ d.entry.queues) :=
      ⟨fun _ _ h _ hz hz' ↦ h hz' hz⟩
    refine hpair.forall hd hd' ?_ hqd hqd'
    rintro rfl
    exact hfg rfl

def twoFunctions : List (Call × List Bool) :=
  [(.entryCreate 0, []), (.update 0 4 0, []), (.entryCreate 1, []), (.update 1 8 (-1), [])]

theorem queues_disjoint_two :
    ((masterResourceCreate 0 2048).run twoFunctions).devIsQueueInRange 1 3 = false :=
  (queues_disjoint (by decide) (by decide) (by decide) (by decide)).2.2 0 1 3 (by decide) (by decide)
    (by decide)

/-- The range that is asked for ends at 0 for an `uint32_t`, so that it is taken to fit, and the free
queues overlap afterwards. -/
example : (((masterResourceCreate 0 2048).step (.entryCreate 0, [])).devUpdate 0 (2 ^ 32 - 1) 1
    []).1 = 0 ∧ (((masterResourceCreate 0 2048).step (.entryCreate 0, [])).devUpdate 0 (2 ^ 32 - 1) 1
      []).2.freeList = [⟨0, 1⟩, ⟨0, 2048⟩] := by decide

/-- As long as memory is to be had, every queue of the device is free or belongs to one function. -/
theorem queues_conserved {b : ℤ} {n : ℕ} (hb : 0 ≤ b) (hn : 0 < n) (hle : b + n ≤ 2 ^ 31)
    {calls : List (Call × List Bool)} (hc : ∀ c ∈ calls, c.1.InRange)
    (hm : ∀ c ∈ calls, false ∉ c.2) :
    ((masterResourceCreate b n).run calls).queues.Perm (⟨b, n⟩ : Extent).cells := by
  refine (loses_run (create_inv hb hn hle) hc hm).trans (.of_eq ?_)
  simp [queues, masterResourceCreate, devQueues, freeQueues, extents, ResourceEntry.extent]

theorem queues_conserved_two : ((masterResourceCreate 0 2048).run twoFunctions).queues.Perm
    (⟨0, 2048⟩ : Extent).cells :=
  queues_conserved (by decide) (by decide) (by decide) (by decide) (by decide)

theorem getDevEntry_putDevEntry (m : ResourceMaster) (d' : DevEntry) (g : ℕ) :
    (m.putDevEntry d').getDevEntry g =
      (m.getDevEntry g).map fun x ↦ if x.funcId = d'.funcId then d' else x := by
  rw [getDevEntry, getDevEntry, putDevEntry, List.find?_map]
  congr 2
  funext x
  simp only [Function.comp_apply]
  split
  next h => rw [h]
  next => rfl

/-- What an update does that is not refused for active queues. -/
theorem devUpdate_outcome (h : m.Inv) (hd : m.getDevEntry f = some d)
    (hsep : d.entry.totalQ ≠ 0 ∨ Separated (extents m.freeList))
    (hact : d.activeH2c = 0 ∧ d.activeC2h = 0 ∧ d.activeCmpt = 0)
    {qmax : ℕ} {qbase : ℤ} (hqmax : 0 < qmax) (hq : qbase + qmax < 2 ^ 32) {mem : List Bool}
    (hmem : false ∉ mem) {r : ℤ × ResourceMaster} (hr : m.devUpdate f qmax qbase mem = r) :
    (r.1 = 0 ↔ ∃ a, Gap d.entry m.freeList qmax a) ∧
    (r.1 = 0 → ∃ d', r.2.getDevEntry f = some d' ∧ d'.entry.totalQ = qmax ∧
      (Gap d.entry m.freeList qmax qbase → d'.entry.qbase = qbase)) ∧
    (r.1 ≠ 0 → r.1 = -errRmNoQueuesLeft ∧ (d.entry.totalQ ≠ 0 → r.2.devList = m.devList)) ∧
    ∀ g, g ≠ f → r.2.getDevEntry g = m.getDevEntry g := by
  obtain ⟨hdm, hf⟩ := getDevEntry_eq_some hd
  rw [devUpdate, hd] at hr
  dsimp only at hr
  rw [if_neg (by tauto)] at hr
  rcases hreq : requestQResource d.entry qmax qbase m.freeList mem with ⟨rv, entry, free, mem'⟩
  rw [hreq] at hr
  have hout := requestQResource_iff h.free (h.owned hdm) hq hqmax hmem hsep hreq
  have hget (g : ℕ) : r.2.getDevEntry g = (m.getDevEntry g).map fun x ↦
      if x.funcId = f then { d with entry := entry } else x := by
    rw [← hr, ← hf]
    exact getDevEntry_putDevEntry m { d with entry := entry } g
  have hother (g : ℕ) (hg : g ≠ f) : r.2.getDevEntry g = m.getDevEntry g := by
    rw [hget]
    rcases hx : m.getDevEntry g with _ | x
    · rfl
    · rw [Option.map_some, if_neg ((getDevEntry_eq_some hx).2.trans_ne hg)]
  have hself : r.2.getDevEntry f = some { d with entry := entry } := by
    rw [hget, hd, Option.map_some, if_pos hf]
  have hrv : r.1 = rv := by rw [← hr]
  dsimp only at hout
  rw [hrv]
  rcases hout with ⟨h0, hgap, htot, hbase⟩ | ⟨hne, hgap, htot, hkeep⟩
  · exact ⟨iff_of_true h0 hgap, fun _ ↦ ⟨_, hself, htot, hbase⟩, fun hne ↦ absurd h0 hne, hother⟩
  · have hne0 : rv ≠ 0 := by
      rw [hne]
      decide
    refine ⟨iff_of_false hne0 hgap, fun h0 ↦ absurd h0 hne0, fun _ ↦ ⟨hne, fun hown ↦ ?_⟩, hother⟩
    obtain ⟨l₁, l₂, hl, -, -, hput⟩ := exists_split h.ids hd
    have hdev := hput { d with entry := entry } hf
    rw [← hr, hkeep hown] at *
    exact hdev.trans hl.symm

/-- A function that has queues gets `qmax` queues instead if, and only if, so many of them lie in a
row that are free or its own; a range asked for that can be had is granted. Otherwise it keeps its
range. Other functions keep theirs in either case. -/
theorem devUpdate_iff {b : ℤ} {n : ℕ} (hb : 0 ≤ b) (hn : 0 < n) (hle : b + n ≤ 2 ^ 31)
    {calls : List (Call × List Bool)} (hc : ∀ c ∈ calls, c.1.InRange)
    (hm : (masterResourceCreate b n).run calls = m) (hd : m.getDevEntry f = some d)
    (hown : d.entry.totalQ ≠ 0) (hact : d.activeH2c = 0 ∧ d.activeC2h = 0 ∧ d.activeCmpt = 0)
    {qmax : ℕ} {qbase : ℤ} (hqmax : 0 < qmax) (hq : qbase + qmax < 2 ^ 32) {mem : List Bool}
    (hmem : false ∉ mem) {r : ℤ × ResourceMaster} (hr : m.devUpdate f qmax qbase mem = r) :
    (r.1 = 0 ↔ ∃ a, Gap d.entry m.freeList qmax a) ∧
    (r.1 = 0 → ∃ d', r.2.getDevEntry f = some d' ∧ d'.entry.totalQ = qmax ∧
      (Gap d.entry m.freeList qmax qbase → d'.entry.qbase = qbase)) ∧
    (r.1 ≠ 0 → r.1 = -errRmNoQueuesLeft ∧ r.2.devList = m.devList) ∧
    ∀ g, g ≠ f → r.2.getDevEntry g = m.getDevEntry g := by
  have h : m.Inv := hm ▸ inv_run (create_inv hb hn hle) hc
  obtain ⟨hiff, hok, herr, hother⟩ := devUpdate_outcome h hd (.inl hown) hact hqmax hq hmem hr
  exact ⟨hiff, hok, fun hne ↦ ⟨(herr hne).1, (herr hne).2 hown⟩, hother⟩

theorem devUpdate_iff_two : ∃ a, Gap ⟨4, 8⟩ ((masterResourceCreate 0 2048).run twoFunctions).freeList
    2044 a :=
  (devUpdate_iff (d := ⟨1, 0, 0, 0, 4, 8⟩) (by decide) (by decide) (by decide) (by decide) rfl
    (by decide) (by decide) (by decide) (by decide) (by decide) (by decide)
    (show ((masterResourceCreate 0 2048).run twoFunctions).devUpdate 1 2044 (-1) [] = _ from rfl)).1.1
    (by decide)

/-- An update is refused to a function that has no queues and was refused one before. -/
def RefusedAgain (m : ResourceMaster) : Call × List Bool → Prop
  | (.update f qmax qbase, mem) => (m.devUpdate f qmax qbase mem).1 ≠ 0 ∧
      ∃ d, m.getDevEntry f = some d ∧ d.entry.totalQ = 0 ∧ 0 ≤ d.entry.qbase
  | _ => False

def NeverRefusedAgain (m : ResourceMaster) : List (Call × List Bool) → Prop
  | [] => True
  | c :: calls => ¬m.RefusedAgain c ∧ (m.step c).NeverRefusedAgain calls

instance (m : ResourceMaster) : DecidablePred m.RefusedAgain
  | (.update f qmax qbase, mem) =>
    match h : m.getDevEntry f with
    | none => .isFalse (by simp [RefusedAgain, h])
    | some d => decidable_of_iff ((m.devUpdate f qmax qbase mem).1 ≠ 0 ∧ d.entry.totalQ = 0 ∧
        0 ≤ d.entry.qbase) (by simp [RefusedAgain, h])
  | (.entryCreate _, _) | (.entryDestroy _, _) | (.increment _ _, _) | (.decrement _ _, _) =>
    inferInstanceAs (Decidable False)

def Defragmented (m : ResourceMaster) : Prop := Separated (extents m.freeList)

theorem defragmented_step (h : m.Inv) {c : Call × List Bool} (hc : c.1.InRange) (hm : false ∉ c.2)
    (hr : ¬m.RefusedAgain c) (hs : m.Defragmented) : (m.step c).Defragmented := by
  obtain ⟨c, mem⟩ := c
  cases c with
  | entryCreate f =>
    rw [step, devEntryCreate]
    split
    · split <;> exact hs
    · exact hs
  | entryDestroy f =>
    rw [step, devEntryDestroy]
    rcases hd : m.getDevEntry f with _ | d
    · exact hs
    · have hsub := submitToFreeList_spec mem h.free (h.owned (getDevEntry_eq_some hd).1)
      exact (hsub.separated hm (.inr hs)).1
  | update f qmax qbase =>
    rw [RefusedAgain] at hr
    rw [step]
    rw [devUpdate] at hr ⊢
    rcases hd : m.getDevEntry f with _ | d
    · exact hs
    rw [hd] at hr
    dsimp only at hr ⊢
    split
    · exact hs
    next hact =>
      rw [if_neg hact] at hr
      refine requestQResource_separated h.free (h.owned (getDevEntry_eq_some hd).1) hc hm hs rfl
        fun hne h0 ↦ ?_
      by_contra hq
      exact hr ⟨hne, d, rfl, h0, by omega⟩
  | increment f ty =>
    rw [step, devIncrementActiveQueue]
    split
    · exact hs
    · dsimp only
      split
      · exact hs
      · split <;> exact hs
  | decrement f ty =>
    rw [step, devDecrementActiveQueue]
    split
    · exact hs
    · dsimp only
      split <;> exact hs

theorem defragmented_run (h : m.Inv) (hs : m.Defragmented) {calls : List (Call × List Bool)}
    (hc : ∀ c ∈ calls, c.1.InRange) (hm : ∀ c ∈ calls, false ∉ c.2)
    (hr : m.NeverRefusedAgain calls) : (m.run calls).Defragmented := by
  induction calls generalizing m with
  | nil => exact hs
  | cons c calls ih =>
    have hc' := hc c List.mem_cons_self
    exact ih (inv_step h hc').1 (defragmented_step h hc' (hm c List.mem_cons_self) hr.1 hs)
      (fun x hx ↦ hc x (.tail _ hx)) (fun x hx ↦ hm x (.tail _ hx)) hr.2

/-- Unless an update is refused once more to a function without queues, no free queues are ever kept
apart that lie in a row: then an update succeeds for every function, with queues or without, if and
only if there are enough of them. -/
theorem devUpdate_iff_of_defragmented {b : ℤ} {n : ℕ} (hb : 0 ≤ b) (hn : 0 < n)
    (hle : b + n ≤ 2 ^ 31) {calls : List (Call × List Bool)} (hc : ∀ c ∈ calls, c.1.InRange)
    (hm : ∀ c ∈ calls, false ∉ c.2) (hr : (masterResourceCreate b n).NeverRefusedAgain calls)
    (hrun : (masterResourceCreate b n).run calls = m) (hd : m.getDevEntry f = some d)
    (hact : d.activeH2c = 0 ∧ d.activeC2h = 0 ∧ d.activeCmpt = 0)
    {qmax : ℕ} {qbase : ℤ} (hqmax : 0 < qmax) (hq : qbase + qmax < 2 ^ 32) {mem : List Bool}
    (hmem : false ∉ mem) :
    m.Defragmented ∧
      ((m.devUpdate f qmax qbase mem).1 = 0 ↔ ∃ a, Gap d.entry m.freeList qmax a) := by
  have h0 := create_inv hb hn hle
  have h : m.Inv := hrun ▸ inv_run h0 hc
  have hs : m.Defragmented := hrun ▸ defragmented_run h0 (List.pairwise_singleton _ _) hc hm hr
  exact ⟨hs, (devUpdate_outcome h hd (.inr hs) hact hqmax hq hmem rfl).1⟩

theorem devUpdate_iff_of_defragmented_two :
    ∃ a, Gap ⟨4, 8⟩ ((masterResourceCreate 0 2048).run twoFunctions).freeList 2044 a :=
  (devUpdate_iff_of_defragmented (d := ⟨1, 0, 0, 0, 4, 8⟩) (by decide) (by decide) (by decide)
    (by decide) (by decide)
    (show (masterResourceCreate 0 2048).NeverRefusedAgain twoFunctions from
      ⟨by decide, by decide, by decide, by decide, trivial⟩) rfl
    (by decide) (by decide) (by decide) (by decide) (by decide)).2.1
    (show (((masterResourceCreate 0 2048).run twoFunctions).devUpdate 1 2044 (-1) []).1 = 0 by decide)

/-- The second refusal splits the free queues where function 1 was refused the first time, so that
function 0 does not get all ten of them. -/
example : (((masterResourceCreate 0 10).run [(.entryCreate 0, []), (.entryCreate 1, []),
    (.update 0 4 (-1), []), (.update 1 20 (-1), []), (.update 0 0 (-1), []),
    (.update 1 20 (-1), [])]).devUpdate 0 10 (-1) []).1 = -errRmNoQueuesLeft := by decide

end ResourceMaster

end QdmaTrafficGen.ResourceMgmt
