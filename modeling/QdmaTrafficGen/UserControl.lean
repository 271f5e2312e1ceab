import QdmaTrafficGen.TrafficGen

namespace QdmaTrafficGen.UserControl

def RSS_KEY : BitVec 320 :=
  0x6d5a56da255b0ec24167253d43a38fb0d0ca2bcbae7b30b477cb2da38030f20c6a42b73bbeac01fa#320

def computeRSShash (srcIp dstIp : BitVec 32) (srcPort dstPort : BitVec 16) (protocol : BitVec 8) :
    BitVec 32 :=
  let inputHs : BitVec 104 := srcIp ++ dstIp ++ srcPort ++ dstPort ++ protocol
  (List.range 104).foldl (fun result k ↦
    if inputHs.getLsbD k then result ^^^ RSS_KEY.extractLsb' (288 - k) 32 else result) 0

def computedHash (c : FlowConfig) : BitVec 32 :=
  computeRSShash c.srcIp TrafficGen.GLOBAL_DST_IP c.srcPort TrafficGen.GLOBAL_DST_PORT
    TrafficGen.GLOBAL_PROTOCOL

/-- The registers of `user_control` for `N` flows. -/
structure State (N : ℕ) where
  rssIndirTable : Fin 16 → BitVec 32 := fun _ ↦ 0
  flowConfigReg : Fin N → FlowConfig := fun _ ↦ { pktSize := 128, cyclesPerPkt := 100 }
  flowRunningReg : BitVec N

def writeFlow (offset data : BitVec 32) (c : FlowConfig) : FlowConfig :=
  if offset = 0x00 then { c with pktSize := data.setWidth 16 }
  else if offset = 0x04 then { c with cyclesPerPkt := data - 1 }
  else if offset = 0x0C then { c with srcIp := data }
  else if offset = 0x10 then { c with srcPort := data.setWidth 16 }
  else if offset = 0x14 then { c with srcMac := c.srcMac.extractLsb' 32 16 ++ data }
  else if offset = 0x18 then
    { c with srcMac := data.setWidth 16 ++ c.srcMac.extractLsb' 0 32 }
  else c

theorem toNat_flowAddr {wrAddr : BitVec 32} (h : 0x210 ≤ wrAddr.toNat) : wrAddr.toNat =
      0x210 + 0x20 * ((wrAddr - 0x210) >>> 5).toNat + ((wrAddr - 0x210) &&& 0x1F).toNat ∧
    ((wrAddr - 0x210) &&& 0x1F).toNat < 0x20 := by
  have hsub : (wrAddr - 0x210).toNat = wrAddr.toNat - 0x210 := by bv_omega
  have hlow : ((wrAddr - 0x210) &&& 0x1F).toNat = (wrAddr.toNat - 0x210) % 0x20 := by
    rw [BitVec.toNat_and, hsub]
    exact Nat.and_two_pow_sub_one_eq_mod _ 5
  rw [hlow, BitVec.toNat_ushiftRight, hsub, Nat.shiftRight_eq_div_pow]
  omega

namespace State

variable {N : ℕ} (s : State N) (wrAddr wdata : BitVec 32)

/-- The registers after a reset, which leaves `flow_running_reg` as it is. -/
def reset (running : BitVec N) : State N := { flowRunningReg := running }

/-- A register write (`m_axil_wvalid && m_axil_wready`). -/
def write : State N :=
  if 0xA8#32 ≤ wrAddr ∧ wrAddr ≤ 0xE4#32 then
    { s with
      rssIndirTable := fun k ↦
        if k.val = ((wrAddr - 0xA8) >>> 2).toNat then wdata else s.rssIndirTable k }
  else if 0x210 ≤ wrAddr.toNat ∧ wrAddr.toNat < 0x210 + N * 0x20 then
    { s with
      flowConfigReg := fun j ↦
        if j.val = ((wrAddr - 0x210) >>> 5).toNat then
          writeFlow ((wrAddr - 0x210) &&& 0x1F) wdata (s.flowConfigReg j)
        else s.flowConfigReg j }
  else
    { s with
      flowConfigReg := fun j ↦
        { s.flowConfigReg j with hashVal := computedHash (s.flowConfigReg j) }
      flowRunningReg := if wrAddr = 0x200 then wdata.setWidth N else s.flowRunningReg }

def c2hQid (hashVal : BitVec 32) : BitVec 11 :=
  (s.rssIndirTable (hashVal.extractLsb' 0 4).toFin).setWidth 11

variable {wrAddr}

theorem write_cyclesPerPkt {j : Fin N} (h : wrAddr.toNat = 0x214 + 0x20 * j.val) :
    (s.write wrAddr wdata).flowConfigReg j = { s.flowConfigReg j with cyclesPerPkt := wdata - 1 } := by
  have hj := j.isLt
  have hlo : ¬(0xA8#32 ≤ wrAddr ∧ wrAddr ≤ 0xE4#32) := by bv_omega
  obtain ⟨haddr, hlt⟩ := toNat_flowAddr (show 0x210 ≤ wrAddr.toNat by omega)
  have hidx : ((wrAddr - 0x210) >>> 5).toNat = j.val := by omega
  have hreg : (wrAddr - 0x210) &&& 0x1F = 4 := BitVec.eq_of_toNat_eq (show _ = 4 by omega)
  simp only [write, hlo, if_false]
  rw [if_pos (by omega)]
  simp only [hidx, if_true, hreg]
  rfl

end State

end QdmaTrafficGen.UserControl
