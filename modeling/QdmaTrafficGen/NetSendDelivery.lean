import QdmaTrafficGen.NetSendRuns

open Clocked Function

namespace QdmaTrafficGen.NetSend

open QdmaNet
open StH2c (Completes Conf Round Rounds SgtReqCb allBytes bytes reqBytes sgBytes span)

variable {N : ℕ} {c : Conf} {kmalloc : ℕ → Option ℕ} {frames : List (TxContext N)}
  {f : TxContext N} {calls : List Bool} {s : Sys N}

def frameBytes (f : TxContext N) : List ℕ := (mappings f).flatMap fun m ↦ span m.1 m.2

theorem sgBytes_eq (sgl : ℕ → SwSg) (k i : ℕ) :
    sgBytes sgl k i = (List.range k).flatMap fun j ↦ span (sgl (i + j)).dmaAddr (sgl (i + j)).len := by
  induction k generalizing i with
  | zero => rfl
  | succ k ih =>
    rw [sgBytes, ih, List.range_succ_eq_map, List.flatMap_cons, List.flatMap_map]
    refine congrArg₂ _ rfl (List.flatMap_congr fun j _ ↦ ?_)
    rw [Nat.add_assoc, Nat.add_comm 1]

theorem reqBytes_eq (f : TxContext N) : reqBytes f.req = frameBytes f := by
  rw [reqBytes, sgBytes_eq, frameBytes, mappings, entries, List.flatMap_map]
  refine List.flatMap_congr fun j _ ↦ ?_
  rw [Nat.zero_add]

theorem allBytes_map (frames : List (TxContext N)) :
    allBytes (frames.map reqCb) = frames.flatMap frameBytes := by
  rw [allBytes, List.flatMap_map]
  exact List.flatMap_congr fun f _ ↦ reqBytes_eq f

/-- A mapping that has been made more often than it has been undone. -/
def Mapped (ops : List TxOp) (m : ℕ × ℕ) : Prop := (unmaps ops).count m < (maps ops).count m

theorem Account.mapped {fs : List (TxContext N)} {ops : List TxOp} {n : ℕ} (h : Account ops fs n)
    (hf : f ∈ fs) {m : ℕ × ℕ} (hm : m ∈ mappings f) : Mapped ops m := by
  rw [Mapped, h.maps_perm.count_eq, List.count_append]
  have hpos := List.count_pos_iff.2 (List.mem_flatMap.2 ⟨f, hf, hm⟩)
  omega

namespace Reachable

variable (hz : 0 < c.rngsz) (hk : Mempool.KmallocLimited kmalloc)

include hz hk

/-- However sending, the work of the driver and the moves of the device follow one another: every
mapping is undone, every context given back and every buffer freed, once, but those of the frames that
the device has not been seen to complete, whose contexts are exactly the blocks taken in the pool. -/
theorem contexts_conserved (h : Reachable c kmalloc frames calls s) :
    Mempool.Tracks s.pool ((frames.drop s.h2c.done.length).map fun f ↦ (f.addr, 1)) ∧
      Account s.ops (frames.drop s.h2c.done.length) calls.length := by
  obtain ⟨-, hheld⟩ := h.held hz hk
  obtain ⟨live, hlive, hperm⟩ := hheld.live
  have ht := hlive.tracks hk
  exact ⟨⟨ht.valid, hperm.nodup_iff.1 ht.nodup, fun a l ↦ hperm.mem_iff.symm.trans (ht.mem_iff a l)⟩,
    hheld.account⟩

theorem open_eq (h : Reachable c kmalloc frames calls s) :
    allBytes (s.h2c.q.pendList ++ s.h2c.q.workList) =
      (frames.drop s.h2c.done.length).flatMap frameBytes := by
  obtain ⟨hr, -⟩ := h.held hz hk
  have hreqs := (hr.in_order hz).1
  rw [List.append_assoc, List.map_append] at hreqs
  rw [← StH2c.allBytes_submitted, ← allBytes_map, List.map_drop, hreqs,
    List.drop_left' (by rw [List.length_map, List.length_map])]

/-- The device is never told of a descriptor for memory that is no longer mapped. -/
theorem dma_mapped (h : Reachable c kmalloc frames calls s) {k : ℕ} (hlt : k < s.h2c.toFetch c)
    {a : ℕ} (ha : a ∈ (s.h2c.q.desc (Ring.slot c.rngsz s.h2c.dev.cidx k)).bytes) :
    ∃ m, Mapped s.ops m ∧ m.1 ≤ a ∧ a < m.1 + m.2 := by
  obtain ⟨hr, hheld⟩ := h.held hz hk
  have hmem := hr.bytes_toFetch hz hlt ha
  rw [h.open_eq hz hk] at hmem
  obtain ⟨f, hf, ha⟩ := List.mem_flatMap.1 hmem
  obtain ⟨m, hm, ha⟩ := List.mem_flatMap.1 ha
  obtain ⟨i, hi, rfl⟩ := List.mem_map.1 ha
  have hlt := List.mem_range.1 hi
  exact ⟨m, hheld.account.mapped hf hm, Nat.le_add_right _ _, by omega⟩

/-- The frames go over the wire one after the other with all their bytes, and are counted when they
have gone. -/
theorem frames_sent (h : Reachable c kmalloc frames calls s) :
    (∀ f ∈ frames, ∃ skb, f.skb = some skb ∧ (mappings f).map Prod.snd = parts skb) ∧
    bytes s.h2c.dev.wire <+: frames.flatMap frameBytes ∧
    (frames.take s.stats.txPackets).flatMap frameBytes <+: bytes s.h2c.dev.wire ∧
    s.stats.txBytes = ((frames.take s.stats.txPackets).flatMap frameBytes).length ∧
    s.stats.txErrors = 0 ∧ s.stats.txDropped + frames.length = calls.count true := by
  obtain ⟨hr, hheld⟩ := h.held hz hk
  obtain ⟨hreqs, -, hwire, hdone⟩ := hr.in_order hz
  obtain ⟨hpackets, herrors, hbytes⟩ := hheld.sent
  rw [List.append_assoc, List.map_append] at hreqs
  have htake : (frames.take s.h2c.done.length).map reqCb =
      (s.h2c.done.map Prod.fst).map SgtReqCb.submitted := by
    rw [List.map_take, hreqs, List.take_left' (by rw [List.length_map, List.length_map])]
  rw [hpackets]
  refine ⟨fun f hf ↦ (hheld.kept f hf).skb, allBytes_map frames ▸ hwire, ?_, ?_, herrors,
    hheld.dropped⟩
  · rwa [← allBytes_map, htake, StH2c.allBytes_submitted]
  · rw [hbytes, List.length_flatMap]
    refine congrArg List.sum (List.map_congr_left fun f hf ↦ ?_)
    have hwf := (hheld.kept f (List.mem_of_mem_take hf)).wellFormed
    rw [← reqBytes_eq]
    exact hwf.length_reqBytes.symm

end Reachable

/-- When driver and device take turns, everything has gone over the wire after at most one turn more
than there are bytes left, and nothing is left mapped, taken or to be freed. -/
theorem Reachable.all_sent (hz : 1 < c.rngsz) (hk : Mempool.KmallocLimited kmalloc)
    (h : Reachable c kmalloc frames calls s) : (∀ n, ∃ t, Rounds c n s.h2c t) ∧
    ∀ n t, s.h2c.q.remaining < n → Rounds c n s.h2c t →
      (s.driven t).stats.txPackets = frames.length ∧ bytes t.dev.wire = frames.flatMap frameBytes ∧
        Mempool.Tracks (s.driven t).pool [] ∧ Account (N := N) (s.driven t).ops [] calls.length := by
  obtain ⟨hr, hheld⟩ := h.held (Nat.zero_lt_of_lt hz) hk
  refine ⟨hr.exists_rounds (Nat.zero_lt_of_lt hz), fun n t hn ht ↦ ?_⟩
  obtain ⟨hall, hwire⟩ := (hr.all_done hz).2 n t hn ht
  have hlen : t.done.length = frames.length := by
    have hlen := congrArg List.length hall
    rwa [List.length_map, List.length_map] at hlen
  have hdone := hheld.driven (Nat.zero_lt_of_lt hz) (.rounds ht) (ht.reachable hr)
  rw [hlen] at hdone
  obtain ⟨live, hlive, hperm⟩ := hdone.live
  have haccount := hdone.account
  rw [List.drop_length] at hperm haccount
  refine ⟨hdone.sent.1, by rw [hwire, allBytes_map], ?_, haccount⟩
  exact hperm.eq_nil ▸ hlive.tracks hk

/-- A frame of six bytes and a fragment of four, and a pool of two contexts. -/
def tenBytes : Skb 1 := ⟨6, [4], by decide⟩

theorem tenBytes_sendable : Sendable tenBytes := ⟨by decide, by decide, by decide⟩

def mapsAt100 : TxOutcome := ⟨100, fun i ↦ 200 + i, 0⟩

def idle : Sys 1 := .init StH2c.smallRing (fun _ ↦ ⟨0, 0⟩) Mempool.twoBlocks

def queued : Sys 1 := idle.xmit mapsAt100 tenBytes true 0 0 (some 4096) (Mempool.twoBlocks.withRun 0 1)

def queuedFrames : List (TxContext 1) :=
  (xmitFrame mapsAt100 tenBytes true 0 0 (some 4096) Mempool.twoBlocks
    (Mempool.twoBlocks.withRun 0 1)).pending.toList

theorem queued_reachable :
    Reachable StH2c.smallRing Mempool.kmallocOnce queuedFrames [true] queued :=
  .xmit (.init (fun _ ↦ ⟨0, 0⟩) (e := 8) (m := 2) (by decide) (by decide) (by decide) rfl) mapsAt100
    tenBytes tenBytes_sendable (by decide) true 0 0 Mempool.first_alloc

def told : Sys 1 := queued.driven (StH2c.procIn 2 [[], [], [.fetch]] queued.h2c)

theorem told_reachable : Reachable StH2c.smallRing Mempool.kmallocOnce queuedFrames [true] told :=
  .proc queued_reachable (StH2c.procRequest_procIn (by decide))

example : bytes told.h2c.dev.wire = [100, 101, 102, 103, 104, 105] := by decide

theorem Reachable.contexts_conserved_told :
    Mempool.Tracks told.pool ((queuedFrames.drop 0).map fun f ↦ (f.addr, 1)) ∧
      Account told.ops (queuedFrames.drop 0) 1 :=
  Reachable.contexts_conserved (by decide) Mempool.kmallocOnce_limited told_reachable

theorem Reachable.dma_mapped_told : ∃ m, Mapped told.ops m ∧ m.1 ≤ 203 ∧ 203 < m.1 + m.2 :=
  Reachable.dma_mapped (by decide) Mempool.kmallocOnce_limited told_reachable (k := 0) (by decide)
    (by decide)

theorem Reachable.frames_sent_told : bytes told.h2c.dev.wire <+: queuedFrames.flatMap frameBytes :=
  (Reachable.frames_sent (by decide) Mempool.kmallocOnce_limited told_reachable).2.1

theorem Reachable.all_sent_told : ∃ t, (told.driven t).stats.txPackets = 1 ∧
    bytes t.dev.wire = queuedFrames.flatMap frameBytes := by
  obtain ⟨hrounds, hall⟩ := Reachable.all_sent (by decide) Mempool.kmallocOnce_limited told_reachable
  obtain ⟨t, ht⟩ := hrounds 1
  obtain ⟨hpackets, hwire, -⟩ := hall 1 t (by decide) ht
  exact ⟨t, hpackets, hwire⟩

end QdmaTrafficGen.NetSend
