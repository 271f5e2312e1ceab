import QdmaTrafficGen.Clocked.Run
import QdmaTrafficGen.UserControl

namespace QdmaTrafficGen.UserControl

open Clocked

variable {N : ℕ}

/-- Register writes, each with its address and its data, after a reset while the flows in `running`
run. -/
def circuit (running : BitVec N) : Circuit (BitVec 32 × BitVec 32) (State N) :=
  ⟨.reset running, fun s w ↦ s.write w.1 w.2⟩

/-- The hash of the packets that a flow with this source sends. -/
def hashFrom (srcIp : BitVec 32) (srcPort : BitVec 16) : BitVec 32 :=
  computeRSShash srcIp TrafficGen.GLOBAL_DST_IP srcPort TrafficGen.GLOBAL_DST_PORT
    TrafficGen.GLOBAL_PROTOCOL

/-- Every running flow has the hash of its packets, and so the queue that they belong to. -/
structure Steered (s : State N) : Prop where
  hash : ∀ j : Fin N, s.flowRunningReg.getLsbD j = true →
    (s.flowConfigReg j).hashVal = hashFrom (s.flowConfigReg j).srcIp (s.flowConfigReg j).srcPort
  queue : ∀ j : Fin N, s.flowRunningReg.getLsbD j = true →
    s.c2hQid (s.flowConfigReg j).hashVal =
      s.c2hQid (hashFrom (s.flowConfigReg j).srcIp (s.flowConfigReg j).srcPort)

/-- A write to the source address or to the source port of a running flow does not change the hash of
its packets. -/
structure KeepsHash (s : State N) (wrAddr wdata : BitVec 32) : Prop where
  srcIp : ∀ j : Fin N, s.flowRunningReg.getLsbD j = true → wrAddr.toNat = 0x21C + 0x20 * j →
    hashFrom wdata (s.flowConfigReg j).srcPort =
      hashFrom (s.flowConfigReg j).srcIp (s.flowConfigReg j).srcPort
  srcPort : ∀ j : Fin N, s.flowRunningReg.getLsbD j = true → wrAddr.toNat = 0x220 + 0x20 * j →
    hashFrom (s.flowConfigReg j).srcIp (wdata.setWidth 16) =
      hashFrom (s.flowConfigReg j).srcIp (s.flowConfigReg j).srcPort

section

variable {s : State N} {wrAddr wdata : BitVec 32}

theorem steered_iff : Steered s ↔ ∀ j : Fin N, s.flowRunningReg.getLsbD j = true →
    (s.flowConfigReg j).hashVal = hashFrom (s.flowConfigReg j).srcIp (s.flowConfigReg j).srcPort :=
  ⟨fun h ↦ h.hash, fun h ↦ ⟨h, fun j hj ↦ congrArg s.c2hQid (h j hj)⟩⟩

theorem computedHash_eq (c : FlowConfig) : computedHash c = hashFrom c.srcIp c.srcPort := rfl

theorem writeFlow_hashVal (offset : BitVec 32) (c : FlowConfig) :
    (writeFlow offset wdata c).hashVal = c.hashVal := by
  unfold writeFlow
  split_ifs
  all_goals rfl

theorem hashFrom_writeFlow (offset : BitVec 32) (c : FlowConfig) :
    hashFrom c.srcIp c.srcPort =
        hashFrom (writeFlow offset wdata c).srcIp (writeFlow offset wdata c).srcPort ↔
      (offset = 0x0C → hashFrom wdata c.srcPort = hashFrom c.srcIp c.srcPort) ∧
      (offset = 0x10 → hashFrom c.srcIp (wdata.setWidth 16) = hashFrom c.srcIp c.srcPort) := by
  by_cases hip : offset = 0x0C
  · subst hip
    exact ⟨fun h ↦ ⟨fun _ ↦ h.symm, fun hne ↦ absurd hne (by decide)⟩, fun h ↦ (h.1 rfl).symm⟩
  by_cases hport : offset = 0x10
  · subst hport
    exact ⟨fun h ↦ ⟨fun hne ↦ absurd hne (by decide), fun _ ↦ h.symm⟩, fun h ↦ (h.2 rfl).symm⟩
  · refine iff_of_true ?_ ⟨fun h ↦ absurd h hip, fun h ↦ absurd h hport⟩
    unfold writeFlow
    rw [if_neg hip, if_neg hport]
    split_ifs
    all_goals rfl

theorem flow_write (hlo : 0x210 ≤ wrAddr.toNat) {c c' : FlowConfig}
    (hc : c.hashVal = hashFrom c.srcIp c.srcPort) {j : ℕ}
    (hc' : c' = if j = ((wrAddr - 0x210) >>> 5).toNat then
      writeFlow ((wrAddr - 0x210) &&& 0x1F) wdata c else c) :
    c'.hashVal = hashFrom c'.srcIp c'.srcPort ↔
      (wrAddr.toNat = 0x21C + 0x20 * j → hashFrom wdata c.srcPort = hashFrom c.srcIp c.srcPort) ∧
      (wrAddr.toNat = 0x220 + 0x20 * j →
        hashFrom c.srcIp (wdata.setWidth 16) = hashFrom c.srcIp c.srcPort) := by
  obtain ⟨haddr, hlt⟩ := toNat_flowAddr hlo
  generalize ((wrAddr - 0x210) >>> 5).toNat = idx at haddr hc'
  generalize (wrAddr - 0x210) &&& 0x1F = offset at haddr hlt hc'
  by_cases hj : j = idx
  · subst hj
    have hip : wrAddr.toNat = 0x21C + 0x20 * j ↔ offset = 0x0C := by
      rw [← BitVec.toNat_inj, haddr]
      exact ⟨fun h ↦ show _ = 12 by omega, fun h ↦ by have : offset.toNat = 12 := h; omega⟩
    have hport : wrAddr.toNat = 0x220 + 0x20 * j ↔ offset = 0x10 := by
      rw [← BitVec.toNat_inj, haddr]
      exact ⟨fun h ↦ show _ = 16 by omega, fun h ↦ by have : offset.toNat = 16 := h; omega⟩
    rw [hc', if_pos rfl, writeFlow_hashVal, hc, hashFrom_writeFlow, hip, hport]
  · rw [hc', if_neg hj]
    exact iff_of_true hc ⟨fun h ↦ by omega, fun h ↦ by omega⟩

theorem steered_write (h : Steered s) : Steered (s.write wrAddr wdata) ↔ KeepsHash s wrAddr wdata := by
  by_cases hrss : 0xA8#32 ≤ wrAddr ∧ wrAddr ≤ 0xE4#32
  · have hle : wrAddr.toNat ≤ 0xE4 := hrss.2
    have hw : s.write wrAddr wdata =
        { s with rssIndirTable := (s.write wrAddr wdata).rssIndirTable } := by
      rw [State.write, if_pos hrss]
    rw [hw]
    exact iff_of_true (steered_iff.mpr h.hash)
      ⟨fun j _ ha ↦ absurd ha (by omega), fun j _ ha ↦ absurd ha (by omega)⟩
  by_cases hflow : 0x210 ≤ wrAddr.toNat ∧ wrAddr.toNat < 0x210 + N * 0x20
  · rw [steered_iff, State.write, if_neg hrss, if_pos hflow]
    constructor
    · intro hs
      exact ⟨fun j hr ↦ ((flow_write hflow.1 (h.hash j hr) rfl).mp (hs j hr)).1,
        fun j hr ↦ ((flow_write hflow.1 (h.hash j hr) rfl).mp (hs j hr)).2⟩
    · intro hk j hr
      exact (flow_write hflow.1 (h.hash j hr) rfl).mpr ⟨hk.srcIp j hr, hk.srcPort j hr⟩
  · rw [State.write, if_neg hrss, if_neg hflow]
    exact iff_of_true (steered_iff.mpr fun j _ ↦ computedHash_eq _)
      ⟨fun j _ ha ↦ absurd ha (by omega), fun j _ ha ↦ absurd ha (by omega)⟩

end

theorem hashFrom_reset : hashFrom 0 0 ≠ 0 := by decide +kernel

theorem steered_reset {running : BitVec N} : Steered (circuit running).reset ↔ running = 0#N := by
  rw [steered_iff, BitVec.eq_of_getLsbD_eq_iff]
  refine ⟨fun h j hj ↦ ?_, fun h j hj ↦ ?_⟩
  · rw [BitVec.getLsbD_zero, Bool.eq_false_iff]
    exact fun hr ↦ hashFrom_reset (h ⟨j, hj⟩ hr).symm
  · have hj' : running.getLsbD j = true := hj
    rw [h j j.isLt, BitVec.getLsbD_zero] at hj'
    cases hj'

/-- The running flows are steered by their own hashes for exactly as long as no write changes the
hash of a running flow's packets, if none was running at the reset. -/
theorem steered_run_iff (running : BitVec N) (w : ℕ → BitVec 32 × BitVec 32) (n : ℕ) :
    (∀ k ≤ n, Steered ((circuit running).run w k)) ↔
      running = 0#N ∧ ∀ k < n, KeepsHash ((circuit running).run w k) (w k).1 (w k).2 := by
  by_cases h : running = 0#N
  · rw [and_iff_right h]
    exact stepwise_iff (I := fun k ↦ Steered ((circuit running).run w k)) (steered_reset.2 h)
      (fun _ hs ↦ steered_write hs) n
  · exact iff_of_false (fun hs ↦ h (steered_reset.1 (hs 0 (Nat.zero_le n)))) fun hs ↦ h hs.1

/-- Flow 0 is started, and then gets another source address. -/
def readdressed (k : ℕ) : BitVec 32 × BitVec 32 :=
  if k = 0 then (0x200, 1) else (0x21C, 0x0A000001)

theorem readdressed_not_steered : ¬∀ (w : ℕ → BitVec 32 × BitVec 32) (k : ℕ),
    Steered ((circuit (0 : BitVec 16)).run w k) := by
  intro h
  have hrun : ((circuit (0 : BitVec 16)).run readdressed 2).flowRunningReg.getLsbD (0 : Fin 16) = true ∧
      (((circuit (0 : BitVec 16)).run readdressed 2).flowConfigReg 0).hashVal ≠
        hashFrom (((circuit (0 : BitVec 16)).run readdressed 2).flowConfigReg 0).srcIp
          (((circuit (0 : BitVec 16)).run readdressed 2).flowConfigReg 0).srcPort := by decide +kernel
  exact hrun.2 ((h readdressed 2).hash 0 hrun.1)

end QdmaTrafficGen.UserControl
