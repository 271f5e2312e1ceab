import QdmaTrafficGen.Packages

namespace QdmaTrafficGen.Datapath

variable (tdata : BitVec 512)

def field (lo w : ℕ) : BitVec w := tdata.extractLsb' lo w

def l2HdrOf : L2Hdr where
  destMac := field tdata 464 48
  srcMac := field tdata 416 48
  ethertype := field tdata 400 16

def ipv4HdrOf : Ipv4Hdr where
  version := field tdata 396 4
  ihl := field tdata 392 4
  dscp := field tdata 386 6
  ecn := field tdata 384 2
  totalLen := field tdata 368 16
  id := field tdata 352 16
  flags := field tdata 349 3
  fragOff := (field tdata 336 13).setWidth 15
  ttl := field tdata 328 8
  protocol := field tdata 320 8
  hdrChecksum := field tdata 304 16
  srcIp := field tdata 272 32
  destIp := field tdata 240 32

def tcpHdrOf : TcpHdr where
  srcPort := field tdata 224 16
  destPort := field tdata 208 16
  seqNum := field tdata 176 32
  ackNum := field tdata 144 32
  dataOff := field tdata 140 4
  resv := field tdata 136 4
  csr := field tdata 128 8
  window := field tdata 112 16
  checksum := field tdata 96 16
  urgent := field tdata 80 16

def tcpCsrOf : TcpCsr where
  syn := tdata.getLsbD 129
  ack := tdata.getLsbD 132
  rst := tdata.getLsbD 130
  fin := tdata.getLsbD 128

/-- What `rx_datapath` decodes from a beat. -/
def decode : Header :=
  if field tdata 400 16 = ETH_TYPE_IPV4 then
    if field tdata 320 8 = IP_PROTO_TCP then
      ⟨l2HdrOf tdata, ipv4HdrOf tdata, tcpHdrOf tdata, tcpCsrOf tdata⟩
    else { l2Hdr := l2HdrOf tdata, ipv4Hdr := ipv4HdrOf tdata }
  else { l2Hdr := l2HdrOf tdata }

def segment (seqNum ackNum : BitVec 32) (flags : BitVec 8) : BitVec 512 :=
  0#96 ++ ETH_TYPE_IPV4 ++ 0#72 ++ IP_PROTO_TCP ++ 0#80 ++ 0#32 ++ seqNum ++ ackNum ++ 0#8 ++
    flags ++ 0#128

structure TxInput where
  tcbValid : Bool
  srcMac : BitVec 48
  destMac : BitVec 48
  srcIp : BitVec 32
  destIp : BitVec 32
  srcPort : BitVec 16
  destPort : BitVec 16
  seqNum : BitVec 32
  ackNum : BitVec 32
  tcpCsr : TcpCsr

def high (x : BitVec 32) : BitVec 20 := (x.extractLsb' 16 16).setWidth 20

def low (x : BitVec 32) : BitVec 20 := (x.extractLsb' 0 16).setWidth 20

def fold (sum : BitVec 20) : BitVec 20 :=
  (sum.extractLsb' 0 16).setWidth 20 + (sum.extractLsb' 16 4).setWidth 20

def checksum (sum : BitVec 20) : BitVec 16 := ~~~((fold (fold sum)).extractLsb' 0 16)

namespace TxInput

variable (i : TxInput)

def flags : BitVec 8 :=
  0#3 ++ BitVec.ofBool i.tcpCsr.ack ++ 0#1 ++ BitVec.ofBool i.tcpCsr.rst ++
    BitVec.ofBool i.tcpCsr.syn ++ BitVec.ofBool i.tcpCsr.fin

def ipChecksum : BitVec 16 :=
  checksum (0x4500#20 + 40#20 + 0x0000#20 + 0x4000#20 + 0x4006#20 +
    high i.srcIp + low i.srcIp + high i.destIp + low i.destIp)

def tcpChecksum : BitVec 16 :=
  checksum (0x0006#20 + 20#20 +
    high i.srcIp + low i.srcIp + high i.destIp + low i.destIp +
    i.srcPort.setWidth 20 + i.destPort.setWidth 20 +
    high i.seqNum + low i.seqNum + high i.ackNum + low i.ackNum +
    (5#4 ++ 0#4 ++ i.flags).setWidth 20)

def upper : BitVec 304 :=
  i.destMac ++ i.srcMac ++ 0x0800#16 ++ 4#4 ++ 5#4 ++ 0#6 ++ 0#2 ++ 40#16 ++ 0#16 ++ 0b010#3 ++
    0#13 ++ 64#8 ++ 0x06#8 ++ i.ipChecksum ++ i.srcIp ++ i.destIp ++ i.srcPort ++ i.destPort

def lower : BitVec 96 :=
  i.ackNum ++ 5#4 ++ 0#4 ++ i.flags ++ 0xFFFF#16 ++ i.tcpChecksum ++ 0#16

/-- The register `s_axis_c2h_tdata` one cycle later; a frame leaves its last 80 bits alone. -/
def tdataNext (tdata : BitVec 512) : BitVec 512 :=
  if !i.tcpCsr.any then 0
  else if i.tcpCsr.any && i.tcbValid then i.upper ++ i.seqNum ++ i.lower ++ tdata.extractLsb' 0 80
  else 0

theorem flags_bits : ∀ {i : TxInput}, i.flags.getLsbD 1 = i.tcpCsr.syn ∧
    i.flags.getLsbD 4 = i.tcpCsr.ack ∧ i.flags.getLsbD 2 = i.tcpCsr.rst ∧
    i.flags.getLsbD 0 = i.tcpCsr.fin := by
  rintro ⟨_, _, _, _, _, _, _, _, _, ⟨syn, ack, rst, fin⟩⟩
  simp only [flags]
  revert syn ack rst fin
  decide

section

variable {i : TxInput} (hc : i.tcpCsr.any = true) (hv : i.tcbValid = true) (tdata : BitVec 512)
include hc hv

theorem tdataNext_frame :
    i.tdataNext tdata = i.upper ++ i.seqNum ++ i.lower ++ tdata.extractLsb' 0 80 := by
  rw [tdataNext, hc, hv]
  rfl

theorem l2Hdr_tdataNext : l2HdrOf (i.tdataNext tdata) = ⟨i.destMac, i.srcMac, ETH_TYPE_IPV4⟩ := by
  rw [tdataNext_frame hc hv]
  simp (disch := omega) only [l2HdrOf, field, upper, BitVec.extractLsb'_append_eq_of_le,
    BitVec.extractLsb'_append_eq_of_add_le, Nat.reduceSub, BitVec.extractLsb'_eq_self]
  rfl

theorem ipv4Hdr_tdataNext : ipv4HdrOf (i.tdataNext tdata) =
    { version := 4, ihl := 5, totalLen := 40, flags := 0b010, ttl := 64, protocol := IP_PROTO_TCP,
      hdrChecksum := i.ipChecksum, srcIp := i.srcIp, destIp := i.destIp } := by
  rw [tdataNext_frame hc hv]
  simp (disch := omega) only [ipv4HdrOf, field, upper, BitVec.extractLsb'_append_eq_of_le,
    BitVec.extractLsb'_append_eq_of_add_le, Nat.reduceSub, BitVec.extractLsb'_eq_self]
  rfl

theorem tcpHdr_tdataNext : tcpHdrOf (i.tdataNext tdata) =
    { srcPort := i.srcPort, destPort := i.destPort, seqNum := i.seqNum, ackNum := i.ackNum,
      dataOff := 5, csr := i.flags, window := 0xFFFF, checksum := i.tcpChecksum } := by
  rw [tdataNext_frame hc hv]
  simp (disch := omega) only [tcpHdrOf, field, upper, BitVec.extractLsb'_append_eq_of_le,
    BitVec.extractLsb'_append_eq_of_add_le, Nat.reduceSub, BitVec.extractLsb'_eq_self]
  simp (disch := omega) only [lower, BitVec.extractLsb'_append_eq_of_le,
    BitVec.extractLsb'_append_eq_of_add_le, Nat.reduceSub, BitVec.extractLsb'_eq_self]
  rfl

theorem seqNum_tdataNext : (i.tdataNext tdata).extractLsb' 176 32 = i.seqNum :=
  congrArg TcpHdr.seqNum (tcpHdr_tdataNext hc hv tdata)

theorem csr_tdataNext : tcpCsrOf (i.tdataNext tdata) = i.tcpCsr := by
  have hflags : field (i.tdataNext tdata) 128 8 = i.flags :=
    congrArg TcpHdr.csr (tcpHdr_tdataNext hc hv tdata)
  have hbit : ∀ k < 8, (i.tdataNext tdata).getLsbD (128 + k) = i.flags.getLsbD k := by
    intro k hk
    rw [← hflags, field, BitVec.getLsbD_extractLsb', decide_eq_true hk, Bool.true_and]
  obtain ⟨hs, ha, hr, hf⟩ := flags_bits (i := i)
  rw [tcpCsrOf, (hbit 1 (by omega)).trans hs, (hbit 4 (by omega)).trans ha,
    (hbit 2 (by omega)).trans hr, (hbit 0 (by omega)).trans hf]

theorem decode_frame : decode (i.tdataNext tdata) =
    ⟨l2HdrOf (i.tdataNext tdata), ipv4HdrOf (i.tdataNext tdata), tcpHdrOf (i.tdataNext tdata),
      i.tcpCsr⟩ := by
  have htype : field (i.tdataNext tdata) 400 16 = ETH_TYPE_IPV4 :=
    congrArg L2Hdr.ethertype (l2Hdr_tdataNext hc hv tdata)
  have hproto : field (i.tdataNext tdata) 320 8 = IP_PROTO_TCP :=
    congrArg Ipv4Hdr.protocol (ipv4Hdr_tdataNext hc hv tdata)
  rw [decode, if_pos htype, if_pos hproto, csr_tdataNext hc hv]

theorem decode_tdataNext : (decode (i.tdataNext tdata)).endpoints =
      ⟨i.destMac, i.srcMac, i.destIp, i.srcIp, i.destPort, i.srcPort⟩ ∧
      (decode (i.tdataNext tdata)).tcpCsr = i.tcpCsr := by
  rw [decode_frame hc hv, Header.endpoints, l2Hdr_tdataNext hc hv, ipv4Hdr_tdataNext hc hv,
    tcpHdr_tdataNext hc hv]
  exact ⟨rfl, rfl⟩

end

theorem tdataNext_ne_zero {i : TxInput} {tdata : BitVec 512} :
    i.tdataNext tdata ≠ 0 ↔ i.tcpCsr.any = true ∧ i.tcbValid = true := by
  constructor
  · intro hne
    cases hc : i.tcpCsr.any <;> cases hv : i.tcbValid <;> simp_all [tdataNext]
  · rintro ⟨hc, hv⟩ hz
    have htype : field (i.tdataNext tdata) 400 16 = ETH_TYPE_IPV4 :=
      congrArg L2Hdr.ethertype (l2Hdr_tdataNext hc hv tdata)
    rw [hz, field, BitVec.ofNat_eq_ofNat, BitVec.extractLsb'_zero] at htype
    exact absurd htype (by decide)

end TxInput

end QdmaTrafficGen.Datapath
