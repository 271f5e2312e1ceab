import Mathlib.Data.List.Basic
import Mathlib.Data.List.Induction
import QdmaTrafficGen.UserControl

namespace QdmaTrafficGen.CalculateHash

open UserControl

def key : ℕ :=
  0x6d5a56da255b0ec24167253d43a38fb0d0ca2bcbae7b30b477cb2da38030f20c6a42b73bbeac01fa

/-- `toeplitz_hash` of `calculate_hash.py`, on integers without bound. -/
def toeplitzHash (srcIp dstIp srcPort dstPort protocol : ℕ) : ℕ :=
  let inputHs := srcIp <<< 72 ||| dstIp <<< 40 ||| srcPort <<< 24 ||| dstPort <<< 8 ||| protocol
  (List.range 104).foldl (fun result i ↦
    if inputHs >>> i &&& 1 ≠ 0 then result ^^^ (key >>> (288 - i) &&& 0xFFFFFFFF) else result) 0
    &&& 0xFFFFFFFF

def DST_IP : ℕ := 0xC0A8640A

def DST_PORT : ℕ := 0x1234

def PROTOCOL : ℕ := 0x06

/-- The source port that a search of the script picks for an address and an RSS index. -/
def search (srcIp index : ℕ) : Option ℕ :=
  (List.range' 1000 1000).find? fun srcPort ↦
    toeplitzHash srcIp DST_IP srcPort DST_PORT PROTOCOL &&& 0xF == index

def xorRows {w : ℕ} (row : ℕ → BitVec w) (bit : ℕ → Bool) (l : List ℕ) : BitVec w :=
  l.foldl (fun result k ↦ if bit k then result ^^^ row k else result) 0

section

variable {w : ℕ} (row : ℕ → BitVec w)

theorem xorRows_concat (bit : ℕ → Bool) (l : List ℕ) (k : ℕ) : xorRows row bit (l ++ [k]) =
    if bit k then xorRows row bit l ^^^ row k else xorRows row bit l := List.foldl_concat ..

theorem xorRows_xor (p q : ℕ → Bool) (l : List ℕ) :
    xorRows row (fun k ↦ p k ^^ q k) l = xorRows row p l ^^^ xorRows row q l := by
  induction l using List.reverseRecOn with
  | nil => exact (BitVec.xor_self (x := 0#w)).symm
  | append_singleton l k ih =>
    rw [xorRows_concat, xorRows_concat, xorRows_concat, ih]
    cases p k with
    | false =>
      cases q k with
      | false => rfl
      | true => exact BitVec.xor_assoc ..
    | true =>
      cases q k with
      | false =>
        simp only [Bool.xor_false, if_true, Bool.false_eq_true, if_false]
        ac_rfl
      | true =>
        simp only [Bool.xor_true, Bool.not_true, if_true, Bool.false_eq_true, if_false]
        have hpair : ∀ a b : BitVec w,
            a ^^^ row k ^^^ (b ^^^ row k) = a ^^^ b ^^^ (row k ^^^ row k) := by
          intro a b
          ac_rfl
        rw [hpair, BitVec.xor_self, BitVec.xor_zero]

theorem toNat_xorRows {rowNat : ℕ → ℕ} {l : List ℕ} (h : ∀ k ∈ l, (row k).toNat = rowNat k)
    (bit : ℕ → Bool) : (xorRows row bit l).toNat =
      l.foldl (fun result k ↦ if bit k then result ^^^ rowNat k else result) 0 := by
  induction l using List.reverseRecOn with
  | nil => exact BitVec.toNat_zero
  | append_singleton l k ih =>
    rw [xorRows_concat, List.foldl_concat, ← ih fun j hj ↦ h j (List.mem_append_left _ hj)]
    split_ifs
    · rw [BitVec.toNat_xor, h k (by simp)]
    · rfl

end

section

variable (srcIp dstIp : BitVec 32) (srcPort dstPort : BitVec 16) (protocol : BitVec 8)

theorem toNat_inputHs : (srcIp ++ dstIp ++ srcPort ++ dstPort ++ protocol).toNat =
    srcIp.toNat <<< 72 ||| dstIp.toNat <<< 40 ||| srcPort.toNat <<< 24 ||| dstPort.toNat <<< 8 |||
      protocol.toNat := by
  rw [BitVec.toNat_append, BitVec.toNat_append, BitVec.toNat_append, BitVec.toNat_append]
  simp only [Nat.shiftLeft_or_distrib, ← Nat.shiftLeft_add, Nat.reduceAdd]

theorem toNat_RSS_KEY : RSS_KEY.toNat = key := by decide +kernel

theorem toNat_row (k : ℕ) : (RSS_KEY.extractLsb' (288 - k) 32).toNat =
    key >>> (288 - k) &&& 0xFFFFFFFF := by
  rw [BitVec.extractLsb'_toNat, toNat_RSS_KEY]
  exact (Nat.and_two_pow_sub_one_eq_mod _ 32).symm

theorem computeRSShash_eq : computeRSShash srcIp dstIp srcPort dstPort protocol =
    xorRows (fun k ↦ RSS_KEY.extractLsb' (288 - k) 32)
      (srcIp ++ dstIp ++ srcPort ++ dstPort ++ protocol).getLsbD (List.range 104) := rfl

theorem toNat_computeRSShash : (computeRSShash srcIp dstIp srcPort dstPort protocol).toNat =
    toeplitzHash srcIp.toNat dstIp.toNat srcPort.toNat dstPort.toNat protocol.toNat := by
  have hbit : ∀ n k : ℕ, n >>> k &&& 1 ≠ 0 ↔ n.testBit k = true := by
    intro n k
    rw [Nat.testBit, Nat.and_comm, bne_iff_ne]
  have hlt := (computeRSShash srcIp dstIp srcPort dstPort protocol).isLt
  have hfold := toNat_xorRows (l := List.range 104) _ (fun k _ ↦ toNat_row k)
    (srcIp ++ dstIp ++ srcPort ++ dstPort ++ protocol).getLsbD
  rw [← computeRSShash_eq] at hfold
  rw [toeplitzHash, ← toNat_inputHs]
  simp only [hbit]
  simp only [BitVec.getLsbD] at hfold
  rw [← hfold]
  exact ((Nat.and_two_pow_sub_one_eq_mod _ 32).trans (Nat.mod_eq_of_lt hlt)).symm

theorem computeRSShash_xor (srcIp' dstIp' : BitVec 32) (srcPort' dstPort' : BitVec 16)
    (protocol' : BitVec 8) :
    computeRSShash (srcIp ^^^ srcIp') (dstIp ^^^ dstIp') (srcPort ^^^ srcPort')
        (dstPort ^^^ dstPort') (protocol ^^^ protocol') =
      computeRSShash srcIp dstIp srcPort dstPort protocol ^^^
        computeRSShash srcIp' dstIp' srcPort' dstPort' protocol' := by
  rw [computeRSShash_eq, computeRSShash_eq, computeRSShash_eq, ← xorRows_xor, ← BitVec.xor_append,
    ← BitVec.xor_append, ← BitVec.xor_append, ← BitVec.xor_append]
  exact congrArg (xorRows _ · _) (funext fun k ↦ BitVec.getLsbD_xor)

end

section

variable {N : ℕ} {c : FlowConfig} {index : Fin 16}

theorem search_selects (h : search c.srcIp.toNat index = some c.srcPort.toNat) :
    (computedHash c).extractLsb' 0 4 = BitVec.ofFin index := by
  have hfind := List.find?_some h
  have hip : DST_IP = TrafficGen.GLOBAL_DST_IP.toNat := rfl
  have hport : DST_PORT = TrafficGen.GLOBAL_DST_PORT.toNat := rfl
  have hproto : PROTOCOL = TrafficGen.GLOBAL_PROTOCOL.toNat := rfl
  rw [hip, hport, hproto, ← toNat_computeRSShash, ← computedHash, beq_iff_eq] at hfind
  apply BitVec.eq_of_toNat_eq
  rw [BitVec.extractLsb'_toNat, Nat.shiftRight_zero]
  exact (Nat.and_two_pow_sub_one_eq_mod _ 4).symm.trans hfind

end

/-- The script hashes like the hardware, and the addresses that it picks for an index select it. -/
theorem hashes_agree :
    (∀ srcIp dstIp srcPort dstPort protocol,
      (computeRSShash srcIp dstIp srcPort dstPort protocol).toNat =
        toeplitzHash srcIp.toNat dstIp.toNat srcPort.toNat dstPort.toNat protocol.toNat) ∧
    (∀ (a a' b b' : BitVec 32) (c c' d d' : BitVec 16) (e e' : BitVec 8),
      computeRSShash (a ^^^ a') (b ^^^ b') (c ^^^ c') (d ^^^ d') (e ^^^ e') =
        computeRSShash a b c d e ^^^ computeRSShash a' b' c' d' e' ∧
      toeplitzHash (a.toNat ^^^ a'.toNat) (b.toNat ^^^ b'.toNat) (c.toNat ^^^ c'.toNat)
          (d.toNat ^^^ d'.toNat) (e.toNat ^^^ e'.toNat) =
        toeplitzHash a.toNat b.toNat c.toNat d.toNat e.toNat ^^^
          toeplitzHash a'.toNat b'.toNat c'.toNat d'.toNat e'.toNat) ∧
    ∀ (N : ℕ) (s : State N) (c : FlowConfig) (index : Fin 16),
      search c.srcIp.toNat index = some c.srcPort.toNat →
        s.c2hQid (computedHash c) = (s.rssIndirTable index).setWidth 11 := by
  refine ⟨toNat_computeRSShash, fun a a' b b' c c' d d' e e' ↦ ?_, fun N s c index h ↦ ?_⟩
  · have hxor := computeRSShash_xor a b c d e a' b' c' d' e'
    refine ⟨hxor, ?_⟩
    simp only [← BitVec.toNat_xor, ← toNat_computeRSShash, hxor]
  · rw [State.c2hQid, search_selects h]

/-- The flows as `test.c` sets them up go to the queues of the first two entries. -/
theorem hashes_agree_flows :
    (((State.reset (0 : BitVec 16)).write 0xA8 4).write 0xAC 5).c2hQid
        (computedHash { srcIp := 0x0A000001, srcPort := 1005 }) = 4 ∧
      (((State.reset (0 : BitVec 16)).write 0xA8 4).write 0xAC 5).c2hQid
        (computedHash { srcIp := 0x0A000002, srcPort := 1000 }) = 5 :=
  ⟨hashes_agree.2.2 16 _ _ 0 (by decide +kernel), hashes_agree.2.2 16 _ _ 1 (by decide +kernel)⟩

end QdmaTrafficGen.CalculateHash
