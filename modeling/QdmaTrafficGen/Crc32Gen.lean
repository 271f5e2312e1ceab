import QdmaTrafficGen.Clocked.Run
import QdmaTrafficGen.Words.Crc

namespace QdmaTrafficGen.Crc32Gen

open Clocked

def CRC_POLY : BitVec 32 := 0b00000100110000010001110110110111#32

/-- The ports of `crc32_gen`, `MAX_DATA_WIDTH` being `D`. -/
structure Input (D : ℕ) where
  data : BitVec D
  vld : Bool
  tlast : Bool
  mty : ℕ
  parErr : Bool
  miscErr : Bool
  crcDis : Bool

structure State where
  crcReg : BitVec 32 := 0
  sop : Bool := true
  parErrReg : Bool := false
  miscErrReg : Bool := false

variable {D : ℕ}

/-- The bytes that the last beat does not have are at its top. -/
def Input.dataMasked (i : Input D) : BitVec D :=
  i.data &&& if i.tlast then BitVec.allOnes D >>> (8 * i.mty) else BitVec.allOnes D

namespace State

variable (s : State) (i : Input D)

def crcVar : BitVec 32 :=
  if i.vld then
    (List.range D).foldl (fun crc k ↦ Crc.step CRC_POLY crc (i.dataMasked.getLsbD (D - k - 1)))
      (if s.sop then BitVec.allOnes 32 else s.crcReg)
  else s.crcReg

def outParErr : Bool :=
  if i.vld then if s.sop then i.parErr else s.parErrReg || i.parErr else s.parErrReg

def outMiscErr : Bool :=
  if i.vld then if s.sop then i.miscErr else s.miscErrReg || i.miscErr else s.miscErrReg

def outCrc : BitVec 32 :=
  let crc := s.crcVar i
  if i.crcDis then
    crc.extractLsb' 2 30 ++ (BitVec.ofBool (s.outMiscErr i) ++ BitVec.ofBool (s.outParErr i))
  else if s.outParErr i then crc ^^^ 3#32
  else if s.outMiscErr i then crc ^^^ BitVec.allOnes 32
  else crc

def next : State where
  crcReg := s.crcVar i
  sop := if i.vld then i.tlast else s.sop
  parErrReg := s.outParErr i
  miscErrReg := s.outMiscErr i

end State

def circuit (D : ℕ) : Circuit (Input D) State := ⟨{}, State.next⟩

def Input.bits (i : Input D) : List Bool :=
  (List.range D).map fun k ↦ i.dataMasked.getLsbD (D - k - 1)

def packetBits (beats : List (Input D)) : List Bool := beats.flatMap Input.bits

def crc (beats : List (Input D)) : BitVec 32 :=
  Crc.feed CRC_POLY (BitVec.allOnes 32) (packetBits beats)

section

variable (u : ℕ → Input D)

/-- The beats before cycle `n` of the packet whose last beat has not come yet. -/
def underWay : ℕ → List (Input D)
  | 0 => []
  | n + 1 =>
    if (u n).vld then if (u n).tlast then [] else underWay n ++ [u n] else underWay n

def beats (n : ℕ) : List (Input D) := underWay u n ++ [u n]

end

variable {s : State} {i : Input D} {u : ℕ → Input D} {n : ℕ}

theorem crcVar_eq (h : i.vld = true) : s.crcVar i =
    Crc.feed CRC_POLY (if s.sop then BitVec.allOnes 32 else s.crcReg) i.bits := by
  rw [State.crcVar, if_pos h, Crc.feed, Input.bits, List.foldl_map]

theorem crc_concat (bs : List (Input D)) (i : Input D) :
    crc (bs ++ [i]) = Crc.feed CRC_POLY (crc bs) i.bits := by
  rw [crc, packetBits, List.flatMap_append, List.flatMap_singleton, Crc.feed_append]
  rfl

/-- The registers stand for the beats of the packet that is under way. -/
structure Holds (s : State) (bs : List (Input D)) : Prop where
  sop : s.sop = bs.isEmpty
  crcReg : s.sop = false → s.crcReg = crc bs
  parErrReg : s.sop = false → s.parErrReg = bs.any Input.parErr
  miscErrReg : s.sop = false → s.miscErrReg = bs.any Input.miscErr

theorem Holds.outputs {bs : List (Input D)} (h : Holds s bs) (hv : i.vld = true) :
    s.crcVar i = crc (bs ++ [i]) ∧ s.outParErr i = (bs ++ [i]).any Input.parErr ∧
      s.outMiscErr i = (bs ++ [i]).any Input.miscErr := by
  rw [crcVar_eq hv, crc_concat, State.outParErr, State.outMiscErr, if_pos hv, if_pos hv,
    List.any_append, List.any_append, List.any_cons, List.any_cons, List.any_nil, List.any_nil,
    Bool.or_false, Bool.or_false]
  cases hs : s.sop with
  | true =>
    obtain rfl := List.isEmpty_iff.1 (h.sop.symm.trans hs)
    exact ⟨rfl, rfl, rfl⟩
  | false =>
    rw [h.crcReg hs, h.parErrReg hs, h.miscErrReg hs]
    exact ⟨rfl, rfl, rfl⟩

theorem holds_run (u : ℕ → Input D) (n : ℕ) : Holds ((circuit D).run u n) (underWay u n) := by
  induction n with
  | zero => exact ⟨rfl, nofun, nofun, nofun⟩
  | succ n ih =>
    rw [Circuit.run_succ, underWay]
    cases hv : (u n).vld with
    | false =>
      have hkeep : (circuit D).next ((circuit D).run u n) (u n) = (circuit D).run u n := by
        simp only [circuit, State.next, State.crcVar, State.outParErr, State.outMiscErr, hv,
          Bool.false_eq_true, if_false]
      rwa [hkeep]
    | true =>
      obtain ⟨hcrc, hpar, hmisc⟩ := ih.outputs hv
      have hsop : ((circuit D).next ((circuit D).run u n) (u n)).sop = (u n).tlast := if_pos hv
      rw [if_pos rfl]
      cases hl : (u n).tlast with
      | true =>
        rw [hl] at hsop
        have habsurd {p : Prop} (h : ((circuit D).next ((circuit D).run u n) (u n)).sop = false) :
            p := Bool.noConfusion (hsop.symm.trans h)
        exact ⟨hsop, habsurd, habsurd, habsurd⟩
      | false =>
        rw [if_neg Bool.false_ne_true]
        refine ⟨hsop.trans (hl.trans ?_), fun _ ↦ hcrc, fun _ ↦ hpar, fun _ ↦ hmisc⟩
        rw [List.isEmpty_eq_false_iff.2 (List.append_ne_nil_of_right_ne_nil _ (List.cons_ne_nil _ _))]

/-- The output is the checksum of the packet exactly if none of its beats came with an error. -/
theorem outCrc_iff (hv : (u n).vld = true) (hd : (u n).crcDis = false) :
    ((circuit D).run u n).outCrc (u n) = crc (beats u n) ↔
      ∀ b ∈ beats u n, b.parErr = false ∧ b.miscErr = false := by
  obtain ⟨hcrc, hpar, hmisc⟩ := (holds_run u n).outputs hv
  have hor : (∀ b ∈ beats u n, b.parErr = false ∧ b.miscErr = false) ↔
      (beats u n).any Input.parErr = false ∧ (beats u n).any Input.miscErr = false := by
    rw [List.any_eq_false, List.any_eq_false]
    simp only [Bool.not_eq_true]
    exact ⟨fun h ↦ ⟨fun b hb ↦ (h b hb).1, fun b hb ↦ (h b hb).2⟩, fun h b hb ↦ ⟨h.1 b hb, h.2 b hb⟩⟩
  have hxor {c m : BitVec 32} (hm : m ≠ 0#32) : c ^^^ m ≠ c := by
    intro h
    refine hm ?_
    have h0 := congrArg (c ^^^ ·) h
    rwa [← BitVec.xor_assoc, BitVec.xor_self, BitVec.zero_xor] at h0
  rw [hor, State.outCrc, hcrc, hpar, hmisc, if_neg (by rw [hd]; exact Bool.false_ne_true)]
  change _ ↔ (underWay u n ++ [u n]).any Input.parErr = false ∧
    (underWay u n ++ [u n]).any Input.miscErr = false
  cases (underWay u n ++ [u n]).any Input.parErr with
  | true => exact iff_of_false (hxor (by decide)) fun h ↦ Bool.noConfusion h.1
  | false =>
    cases (underWay u n ++ [u n]).any Input.miscErr with
    | true => exact iff_of_false (hxor (by decide)) fun h ↦ Bool.noConfusion h.2
    | false => exact iff_of_true rfl ⟨rfl, rfl⟩

def parityError (n : ℕ) : Input 8 := ⟨0x35#8, true, n = 1, 0, n = 0, false, false⟩

theorem outCrc_iff_parityError :
    ((circuit 8).run parityError 1).outCrc (parityError 1) ≠ crc (beats parityError 1) := by
  intro h
  have hok := (outCrc_iff (u := parityError) rfl rfl).1 h
  exact absurd (hok (parityError 0) (List.mem_append_left _ List.mem_cons_self)).1 (by decide)

end QdmaTrafficGen.Crc32Gen
