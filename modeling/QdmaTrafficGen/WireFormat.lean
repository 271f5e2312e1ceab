import QdmaTrafficGen.Datapath

namespace QdmaTrafficGen.Datapath

namespace TxInput

section

variable {i : TxInput} (hc : i.tcpCsr.any = true) (hv : i.tcbValid = true) (tdata : BitVec 512)
include hc hv

/-- The receive path reads from a frame what the transmit path wrote into it. -/
theorem round_trip : decode (i.tdataNext tdata) =
    { l2Hdr := { destMac := i.destMac, srcMac := i.srcMac, ethertype := 0x0800 }
      ipv4Hdr :=
        { version := 4, ihl := 5, dscp := 0, ecn := 0, totalLen := 40, id := 0, flags := 0b010
          fragOff := 0, ttl := 64, protocol := 6, hdrChecksum := i.ipChecksum
          srcIp := i.srcIp, destIp := i.destIp }
      tcpHdr :=
        { srcPort := i.srcPort, destPort := i.destPort, seqNum := i.seqNum, ackNum := i.ackNum
          dataOff := 5, resv := 0, csr := i.flags, window := 0xFFFF, checksum := i.tcpChecksum
          urgent := 0 }
      tcpCsr := i.tcpCsr } := by
  rw [decode_frame hc hv, l2Hdr_tdataNext hc hv, ipv4Hdr_tdataNext hc hv, tcpHdr_tdataNext hc hv]
  rfl

end

def synAck : TxInput where
  tcbValid := true
  srcMac := 0x00155D000102
  destMac := 0x00155D000304
  srcIp := 0xC0A8640A
  destIp := 0x0A000001
  srcPort := 0x1234
  destPort := 1000
  seqNum := 1
  ackNum := 0xFFFFFFFF
  tcpCsr := .SYN_ACK

theorem round_trip_synAck : (decode (synAck.tdataNext 0)).tcpCsr = .SYN_ACK ∧
    (decode (synAck.tdataNext 0)).tcpHdr.ackNum = 0xFFFFFFFF := by
  rw [round_trip (i := synAck) rfl rfl 0]
  exact ⟨rfl, rfl⟩

end TxInput

structure Segment where
  srcPort : BitVec 16
  destPort : BitVec 16
  seqNum : BitVec 32
  ackNum : BitVec 32
  tcpCsr : TcpCsr
  deriving DecidableEq

def Segment.ofHeader (hdr : Header) : Segment :=
  ⟨hdr.tcpHdr.srcPort, hdr.tcpHdr.destPort, hdr.tcpHdr.seqNum, hdr.tcpHdr.ackNum, hdr.tcpCsr⟩

/-- The 20 bytes that every TCP header begins with, as the standard lays them out. -/
def Segment.parse (h : BitVec 160) : Segment where
  srcPort := h.extractLsb' 144 16
  destPort := h.extractLsb' 128 16
  seqNum := h.extractLsb' 96 32
  ackNum := h.extractLsb' 64 32
  tcpCsr :=
    { syn := h.getLsbD 49, ack := h.getLsbD 52, rst := h.getLsbD 50, fin := h.getLsbD 48 }

/-- The segment whose TCP header begins `4 * ihl` bytes after the beginning of the IPv4 header. -/
def reference (ihl : ℕ) (tdata : BitVec 512) : Segment :=
  Segment.parse (field tdata (240 - 32 * ihl) 160)

/-- A beat from which flags are read is a first fragment of TCP over IPv4, and its segment is the
one that follows the IPv4 header, if that ends inside the beat. -/
def FindsSegment (tdata : BitVec 512) : Prop :=
  (decode tdata).tcpCsr.any = true →
    (field tdata 400 16 = ETH_TYPE_IPV4 ∧ field tdata 396 4 = 4 ∧
      field tdata 320 8 = IP_PROTO_TCP ∧ field tdata 336 13 = 0) ∧
    ((field tdata 392 4).toNat ≤ 7 →
      Segment.ofHeader (decode tdata) = reference (field tdata 392 4).toNat tdata)

section

variable {tdata : BitVec 512}

theorem ipv4Tcp_of_any (h : (decode tdata).tcpCsr.any = true) :
    field tdata 400 16 = ETH_TYPE_IPV4 ∧ field tdata 320 8 = IP_PROTO_TCP := by
  unfold decode at h
  split_ifs at h with htype hproto
  · exact ⟨htype, hproto⟩
  · exact absurd h Bool.false_ne_true
  · exact absurd h Bool.false_ne_true

theorem extractLsb'_field {lo w k n : ℕ} (h : k + n ≤ w) :
    (field tdata lo w).extractLsb' k n = field tdata (lo + k) n := by
  ext j hj
  simp only [field, BitVec.getElem_extractLsb', BitVec.getLsbD_extractLsb', Nat.add_assoc,
    decide_eq_true (by omega : k + j < w), Bool.true_and]

theorem getLsbD_field {lo w k : ℕ} (h : k < w) :
    (field tdata lo w).getLsbD k = tdata.getLsbD (lo + k) := by
  rw [field, BitVec.getLsbD_extractLsb', decide_eq_true h, Bool.true_and]

theorem reference_five : reference 5 tdata =
    Segment.ofHeader ⟨l2HdrOf tdata, ipv4HdrOf tdata, tcpHdrOf tdata, tcpCsrOf tdata⟩ := by
  simp only [reference, Segment.parse, Segment.ofHeader, tcpHdrOf, tcpCsrOf]
  simp (disch := omega) only [extractLsb'_field, getLsbD_field]

theorem ofHeader_decode (htype : field tdata 400 16 = ETH_TYPE_IPV4)
    (hproto : field tdata 320 8 = IP_PROTO_TCP) :
    Segment.ofHeader (decode tdata) = reference 5 tdata := by
  rw [decode, if_pos htype, if_pos hproto, reference_five]

/-- The segment is read where it begins if the IPv4 header has no options, whatever else that header
says. -/
theorem decode_reads (h : (decode tdata).tcpCsr.any = true) :
    field tdata 400 16 = ETH_TYPE_IPV4 ∧ field tdata 320 8 = IP_PROTO_TCP ∧
      Segment.ofHeader (decode tdata) = reference 5 tdata ∧
      ∀ tdata', field tdata' 400 16 = ETH_TYPE_IPV4 → field tdata' 320 8 = IP_PROTO_TCP →
        field tdata' 80 160 = field tdata 80 160 →
        Segment.ofHeader (decode tdata') = Segment.ofHeader (decode tdata) := by
  obtain ⟨htype, hproto⟩ := ipv4Tcp_of_any h
  refine ⟨htype, hproto, ofHeader_decode htype hproto, ?_⟩
  intro tdata' htype' hproto' hsegment
  rw [ofHeader_decode htype' hproto', ofHeader_decode htype hproto]
  exact congrArg Segment.parse hsegment

end

/-- A packet with four bytes of IPv4 options, which acknowledges the number 0x20000. -/
def optionsBeat : BitVec 512 :=
  0#96 ++ ETH_TYPE_IPV4 ++ 4#4 ++ 6#4 ++ 0#8 ++ 44#16 ++ 0#16 ++ 0b010#3 ++ 0#13 ++ 64#8 ++
    IP_PROTO_TCP ++ 0#16 ++ 0x0A000001#32 ++ 0xC0A8640A#32 ++ 0x01010100#32 ++
    1000#16 ++ 80#16 ++ 1#32 ++ 0x20000#32 ++ 5#4 ++ 0#4 ++ 0x10#8 ++ 0xFFFF#16 ++ 0#16 ++ 0#16 ++
    0#48

/-- The acknowledgement behind the options is taken for a SYN from other ports. -/
theorem not_findsSegment : ¬∀ tdata, FindsSegment tdata := by
  intro h
  have hread : (decode optionsBeat).tcpCsr = .SYN ∧ (reference 6 optionsBeat).tcpCsr = .ACK ∧
      (field optionsBeat 392 4).toNat = 6 := by decide
  obtain ⟨hdec, href, hihl⟩ := hread
  have hseg := (h optionsBeat (by rw [hdec]; rfl)).2 (by rw [hihl]; decide)
  rw [hihl] at hseg
  exact absurd (hdec.symm.trans ((congrArg Segment.tcpCsr hseg).trans href)) (by decide)

theorem decode_reads_options : Segment.ofHeader (decode optionsBeat) = reference 5 optionsBeat :=
  (decode_reads (by decide)).2.2.1

end QdmaTrafficGen.Datapath
