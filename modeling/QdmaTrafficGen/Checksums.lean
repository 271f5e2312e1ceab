import Mathlib.Algebra.Order.BigOperators.Group.List
import Mathlib.Algebra.Order.Group.Nat
import QdmaTrafficGen.WireFormat
import QdmaTrafficGen.Words.OnesComplement

namespace QdmaTrafficGen

def Ipv4Hdr.words (h : Ipv4Hdr) : List (BitVec 16) :=
  [h.version ++ h.ihl ++ h.dscp ++ h.ecn, h.totalLen, h.id, h.flags ++ h.fragOff.setWidth 13,
    h.ttl ++ h.protocol, h.hdrChecksum, h.srcIp.extractLsb' 16 16, h.srcIp.extractLsb' 0 16,
    h.destIp.extractLsb' 16 16, h.destIp.extractLsb' 0 16]

def TcpHdr.words (h : TcpHdr) : List (BitVec 16) :=
  [h.srcPort, h.destPort, h.seqNum.extractLsb' 16 16, h.seqNum.extractLsb' 0 16,
    h.ackNum.extractLsb' 16 16, h.ackNum.extractLsb' 0 16, h.dataOff ++ h.resv ++ h.csr, h.window,
    h.checksum, h.urgent]

namespace Datapath

def ipv4Words (tdata : BitVec 512) : List (BitVec 16) :=
  (List.range 10).map fun k ↦ field tdata (384 - 16 * k) 16

def tcpWords (tdata : BitVec 512) : List (BitVec 16) :=
  (List.range 10).map fun k ↦ field tdata (224 - 16 * k) 16

/-- The addresses in a frame, the protocol and the length of a TCP header without options. -/
def pseudoHeader (tdata : BitVec 512) : List (BitVec 16) :=
  [field tdata 288 16, field tdata 272 16, field tdata 256 16, field tdata 240 16, 0x0006, 20]

section

variable {tdata : BitVec 512}

theorem field_append (lo a b : ℕ) :
    field tdata (lo + b) a ++ field tdata lo b = field tdata lo (a + b) :=
  BitVec.extractLsb'_append_extractLsb'_eq_extractLsb' rfl

theorem ipv4Words_eq : ipv4Words tdata = (ipv4HdrOf tdata).words := by
  have hfrag : ((field tdata 336 13).setWidth 15).setWidth 13 = field tdata 336 13 :=
    BitVec.setWidth_setWidth_of_le _ (by omega)
  simp only [Ipv4Hdr.words, ipv4HdrOf, hfrag]
  simp (disch := omega) only [extractLsb'_field]
  rw [field_append 392 4 4, field_append 386 8 6, field_append 384 14 2, field_append 336 3 13,
    field_append 320 8 8]
  rfl

theorem tcpWords_eq : tcpWords tdata = (tcpHdrOf tdata).words := by
  simp only [TcpHdr.words, tcpHdrOf]
  simp (disch := omega) only [extractLsb'_field]
  rw [field_append 136 4 4, field_append 128 8 8]
  rfl

end

/-- The sum of `l`, taken from left to right, stays inside the accumulator, and after two folds it
is a word, whose complement is the checksum `c`. -/
structure Sums (l : List (BitVec 20)) (c : BitVec 16) : Prop where
  inside : ∀ p, p <+: l → (p.map BitVec.toNat).sum < 2 ^ 20
  folds : ∀ x, (fold x).toNat = x.toNat % 2 ^ 16 + x.toNat / 2 ^ 16
  twice : (fold (fold (l.foldl (· + ·) 0))).toNat < 2 ^ 16
  checksum : c = ~~~((fold (fold (l.foldl (· + ·) 0))).setWidth 16)

section

variable {l : List (BitVec 20)}

theorem toNat_fold (x : BitVec 20) : (fold x).toNat = OnesComplement.fold 16 x.toNat := by
  have hq : x.toNat / 2 ^ 16 < 2 ^ 4 := Nat.div_lt_of_lt_mul x.isLt
  have hr : x.toNat % 2 ^ 16 < 2 ^ 16 := Nat.mod_lt _ (Nat.two_pow_pos 16)
  simp only [fold, BitVec.toNat_add, BitVec.toNat_setWidth, BitVec.extractLsb'_toNat,
    Nat.shiftRight_eq_div_pow, Nat.pow_zero, Nat.div_one, OnesComplement.fold]
  rw [Nat.mod_eq_of_lt hq]
  simp (disch := omega) only [Nat.mod_eq_of_lt]

theorem toNat_foldl (h : (l.map BitVec.toNat).sum < 2 ^ 20) :
    (l.foldl (· + ·) 0).toNat = (l.map BitVec.toNat).sum := by
  induction l using List.reverseRecOn with
  | nil => rfl
  | append_singleton l x ih =>
    rw [List.map_append, List.sum_append, List.map_singleton, List.sum_singleton] at h ⊢
    rw [List.foldl_concat, BitVec.toNat_add, ih (by omega), Nat.mod_eq_of_lt h]

theorem sum_initial_le {p : List (BitVec 20)} (h : p <+: l) :
    (p.map BitVec.toNat).sum ≤ (l.map BitVec.toNat).sum := by
  obtain ⟨t, rfl⟩ := h
  rw [List.map_append, List.sum_append]
  exact Nat.le_add_right _ _

theorem sum_lt (hw : ∀ x ∈ l, x.toNat < 2 ^ 16) (hl : l.length ≤ 16) :
    (l.map BitVec.toNat).sum < 2 ^ 20 := by
  have hsum : (l.map BitVec.toNat).sum ≤ l.length * (2 ^ 16 - 1) := by
    have hle : ∀ n ∈ l.map BitVec.toNat, n ≤ 2 ^ 16 - 1 := by
      intro n hn
      obtain ⟨x, hx, rfl⟩ := List.mem_map.mp hn
      exact Nat.le_sub_one_of_lt (hw x hx)
    have hsum := List.sum_le_card_nsmul _ _ hle
    rwa [List.length_map] at hsum
  omega

theorem sums_of_words (hw : ∀ x ∈ l, x.toNat < 2 ^ 16) (hl : l.length ≤ 16) :
    Sums l (Datapath.checksum (l.foldl (· + ·) 0)) where
  inside := fun _ hp ↦ (sum_initial_le hp).trans_lt (sum_lt hw hl)
  folds := toNat_fold
  twice := by
    rw [toNat_fold, toNat_fold]
    exact OnesComplement.fold_fold_lt (by have := (l.foldl (· + ·) 0).isLt; omega)
  checksum := rfl

theorem toNat_checksum (s : BitVec 20) : (checksum s).toNat =
    2 ^ 16 - 1 - OnesComplement.fold 16 (OnesComplement.fold 16 s.toNat) := by
  have hlt : OnesComplement.fold 16 (OnesComplement.fold 16 s.toNat) < 2 ^ 16 :=
    OnesComplement.fold_fold_lt (by have := s.isLt; omega)
  rw [checksum, BitVec.toNat_not, BitVec.extractLsb'_toNat, Nat.shiftRight_zero, toNat_fold,
    toNat_fold, Nat.mod_eq_of_lt hlt]

theorem verifies {words : List (BitVec 16)} {k : ℕ} (hl : (l.map BitVec.toNat).sum < 2 ^ 20)
    (hw : (words.map BitVec.toNat).sum =
      (l.map BitVec.toNat).sum + (checksum (l.foldl (· + ·) 0)).toNat + k * (2 ^ 16 - 1))
    (h₀ : (l.map BitVec.toNat).sum ≠ 0) : OnesComplement.sum words = 0xFFFF := by
  refine OnesComplement.sum_eq_allOnes ?_ (by omega)
  rw [hw, toNat_checksum, toNat_foldl hl]
  exact Nat.dvd_add (OnesComplement.dvd_add_complement (by omega)) (Nat.dvd_mul_left _ _)

end

namespace TxInput

section

variable (i : TxInput)

def ipSummands : List (BitVec 20) :=
  [0x4500, 40, 0x0000, 0x4000, 0x4006, high i.srcIp, low i.srcIp, high i.destIp, low i.destIp]

def tcpSummands : List (BitVec 20) :=
  [0x0006, 20, high i.srcIp, low i.srcIp, high i.destIp, low i.destIp, i.srcPort.setWidth 20,
    i.destPort.setWidth 20, high i.seqNum, low i.seqNum, high i.ackNum, low i.ackNum,
    (5#4 ++ 0#4 ++ i.flags).setWidth 20]

theorem ipChecksum_eq : i.ipChecksum = checksum (i.ipSummands.foldl (· + ·) 0) := rfl

theorem tcpChecksum_eq : i.tcpChecksum = checksum (i.tcpSummands.foldl (· + ·) 0) := rfl

theorem toNat_word (x : BitVec 16) : (x.setWidth 20).toNat = x.toNat :=
  BitVec.toNat_setWidth_of_le (by omega)

theorem setWidth_lt (x : BitVec 16) : (x.setWidth 20).toNat < 2 ^ 16 := by
  rw [toNat_word]
  exact x.isLt

theorem ipSummands_lt : ∀ x ∈ i.ipSummands, x.toNat < 2 ^ 16 := by
  simp only [ipSummands, List.forall_mem_cons, high, low]
  refine ⟨by decide, by decide, by decide, by decide, by decide, setWidth_lt _, setWidth_lt _,
    setWidth_lt _, setWidth_lt _, nofun⟩

theorem tcpSummands_lt : ∀ x ∈ i.tcpSummands, x.toNat < 2 ^ 16 := by
  simp only [tcpSummands, List.forall_mem_cons, high, low]
  refine ⟨by decide, by decide, setWidth_lt _, setWidth_lt _, setWidth_lt _, setWidth_lt _,
    setWidth_lt _, setWidth_lt _, setWidth_lt _, setWidth_lt _, setWidth_lt _, setWidth_lt _,
    setWidth_lt _, nofun⟩

theorem ipSums : Sums i.ipSummands i.ipChecksum :=
  i.ipChecksum_eq ▸ sums_of_words i.ipSummands_lt (by simp [ipSummands])

theorem tcpSums : Sums i.tcpSummands i.tcpChecksum :=
  i.tcpChecksum_eq ▸ sums_of_words i.tcpSummands_lt (by simp [tcpSummands])

end

section

variable {i : TxInput} (hc : i.tcpCsr.any = true) (hv : i.tcbValid = true) (tdata : BitVec 512)
include hc hv

theorem ipv4Words_tdataNext : ipv4Words (i.tdataNext tdata) =
    [0x4500, 40, 0, 0x4000, 0x4006, i.ipChecksum,
      i.srcIp.extractLsb' 16 16, i.srcIp.extractLsb' 0 16,
      i.destIp.extractLsb' 16 16, i.destIp.extractLsb' 0 16] := by
  have hfirst : 4#4 ++ 5#4 ++ 0#6 ++ 0#2 = 0x4500#16 := by decide
  have hfrag : 0b010#3 ++ (0#15).setWidth 13 = 0x4000#16 := by decide
  have hproto : 64#8 ++ IP_PROTO_TCP = 0x4006#16 := by decide
  rw [ipv4Words_eq, ipv4Hdr_tdataNext hc hv]
  exact congrArg₂ List.cons hfirst <| congrArg (40 :: 0 :: ·) <|
    congrArg₂ List.cons hfrag <| congrArg₂ List.cons hproto rfl

theorem pseudoHeader_tdataNext : pseudoHeader (i.tdataNext tdata) =
    [i.srcIp.extractLsb' 16 16, i.srcIp.extractLsb' 0 16,
      i.destIp.extractLsb' 16 16, i.destIp.extractLsb' 0 16, 0x0006, 20] := by
  have hwords : pseudoHeader (i.tdataNext tdata) =
      (ipv4Words (i.tdataNext tdata)).drop 6 ++ [0x0006, 20] := rfl
  rw [hwords, ipv4Words_tdataNext hc hv]
  rfl

theorem tcpWords_tdataNext : tcpWords (i.tdataNext tdata) =
    [i.srcPort, i.destPort, i.seqNum.extractLsb' 16 16, i.seqNum.extractLsb' 0 16,
      i.ackNum.extractLsb' 16 16, i.ackNum.extractLsb' 0 16, 5#4 ++ 0#4 ++ i.flags, 0xFFFF,
      i.tcpChecksum, 0] := by
  rw [tcpWords_eq, tcpHdr_tdataNext hc hv]
  rfl

/-- The headers of every frame verify, and neither checksum loses a carry. -/
theorem checksums_verify : OnesComplement.sum (ipv4Words (i.tdataNext tdata)) = 0xFFFF ∧
    OnesComplement.sum (pseudoHeader (i.tdataNext tdata) ++ tcpWords (i.tdataNext tdata)) =
      0xFFFF ∧
    Sums i.ipSummands i.ipChecksum ∧ Sums i.tcpSummands i.tcpChecksum := by
  refine ⟨?_, ?_, i.ipSums, i.tcpSums⟩
  · refine verifies (l := i.ipSummands) (k := 0) (i.ipSums.inside _ List.prefix_rfl) ?_ ?_
    · rw [ipv4Words_tdataNext hc hv, ← ipChecksum_eq]
      simp only [ipSummands, List.map_cons, List.map_nil, List.sum_cons, List.sum_nil, high, low,
        toNat_word, BitVec.ofNat_eq_ofNat, BitVec.toNat_ofNat, Nat.reducePow, Nat.reduceMod]
      omega
    · simp [ipSummands]
  · refine verifies (l := i.tcpSummands) (k := 1) (i.tcpSums.inside _ List.prefix_rfl) ?_ ?_
    · rw [pseudoHeader_tdataNext hc hv, tcpWords_tdataNext hc hv, ← tcpChecksum_eq]
      simp only [tcpSummands, List.map_append, List.sum_append, List.map_cons, List.map_nil,
        List.sum_cons, List.sum_nil, high, low, toNat_word, BitVec.ofNat_eq_ofNat,
        BitVec.toNat_ofNat, Nat.reducePow, Nat.reduceMod]
      omega
    · simp [tcpSummands]

end

theorem checksums_verify_synAck : OnesComplement.sum (ipv4Words (synAck.tdataNext 0)) = 0xFFFF ∧
    OnesComplement.sum (pseudoHeader (synAck.tdataNext 0) ++ tcpWords (synAck.tdataNext 0)) =
      0xFFFF :=
  have h := checksums_verify (i := synAck) rfl rfl 0
  ⟨h.1, h.2.1⟩

end TxInput

end Datapath

end QdmaTrafficGen
