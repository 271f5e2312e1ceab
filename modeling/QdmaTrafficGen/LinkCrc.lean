import QdmaTrafficGen.Crc32Gen

namespace QdmaTrafficGen.LinkCrc

open Clocked
open Crc32Gen (beats crc packetBits underWay)

structure Input (D : ℕ) where
  tdata : BitVec D
  tvalid : Bool
  tlast : Bool
  tcrc : BitVec 32
  mty : ℕ
  clrMatch : Bool

/-- The registered stream, `crc32_gen_h2c_i` and `h2c_crc_match`. -/
structure State (D : ℕ) where
  tdataReg : BitVec D
  tvalidReg : Bool
  tlastReg : Bool
  tcrcReg : BitVec 32
  mtyReg : ℕ
  gen : Crc32Gen.State
  crcMatch : Bool

variable {D : ℕ}

namespace State

variable (s : State D) (i : Input D)

def genInput : Crc32Gen.Input D :=
  ⟨s.tdataReg, s.tvalidReg, s.tlastReg, s.mtyReg, false, false, false⟩

def genCrc : BitVec 32 := s.gen.outCrc s.genInput

def next : State D where
  tdataReg := i.tdata
  tvalidReg := i.tvalid
  tlastReg := i.tlast
  tcrcReg := i.tcrc
  mtyReg := i.mty
  gen := s.gen.next s.genInput
  crcMatch :=
    if i.clrMatch || s.tlastReg && s.tcrcReg != s.genCrc then false
    else if s.tlastReg && s.tcrcReg == s.genCrc then true
    else s.crcMatch

end State

/-- The registers of the stream are not reset: they hold what was on it in the last cycle of reset. -/
def circuit (i : Input D) : Circuit (Input D) (State D) :=
  ⟨⟨i.tdata, i.tvalid, i.tlast, i.tcrc, i.mty, {}, false⟩, State.next⟩

variable {i₀ : Input D} {u : ℕ → Input D} {n : ℕ}

def seen (i₀ : Input D) (u : ℕ → Input D) (n : ℕ) : Crc32Gen.Input D :=
  ((circuit i₀).run u n).genInput

theorem gen_run (n : ℕ) :
    ((circuit i₀).run u n).gen = (Crc32Gen.circuit D).run (seen i₀ u) n := by
  induction n with
  | zero => rfl
  | succ n ih =>
    rw [Circuit.run_succ, Circuit.run_succ, ← ih]
    rfl

theorem seen_error_free (n : ℕ) :
    ∀ b ∈ beats (seen i₀ u) n, b.parErr = false ∧ b.miscErr = false := by
  have hbefore (n : ℕ) : ∀ b ∈ underWay (seen i₀ u) n, b.parErr = false ∧ b.miscErr = false := by
    induction n with
    | zero => exact List.forall_mem_nil _
    | succ n ih =>
      rw [underWay]
      split
      · split
        · exact List.forall_mem_nil _
        · exact List.forall_mem_append.2 ⟨ih, List.forall_mem_singleton.2 ⟨rfl, rfl⟩⟩
      · exact ih
  exact List.forall_mem_append.2 ⟨hbefore n, List.forall_mem_singleton.2 ⟨rfl, rfl⟩⟩

theorem genCrc_run (hv : (seen i₀ u n).vld = true) :
    ((circuit i₀).run u n).genCrc = crc (beats (seen i₀ u) n) := by
  rw [State.genCrc, gen_run]
  exact (Crc32Gen.outCrc_iff hv rfl).2 (seen_error_free n)

theorem crcMatch_next (hv : (seen i₀ u n).vld = true) (hl : (seen i₀ u n).tlast = true)
    (hclr : (u n).clrMatch = false) : ((circuit i₀).run u (n + 1)).crcMatch = true ↔
      ((circuit i₀).run u n).tcrcReg = crc (beats (seen i₀ u) n) := by
  have hl' : ((circuit i₀).run u n).tlastReg = true := hl
  rw [← genCrc_run hv, Circuit.run_succ]
  change (State.next _ _).crcMatch = true ↔ _
  rw [State.next, hclr, hl']
  by_cases heq : ((circuit i₀).run u n).tcrcReg = ((circuit i₀).run u n).genCrc
  · simp [heq]
  · simp [heq]

/-- A packet is sent with the checksum that `crc32_gen` gives, and arrives so that all bits that may
have changed lie within 32 places. It is accepted exactly if none has. -/
theorem burst_detected (g : ℕ → Crc32Gen.Input D) (k : ℕ) (hg : (g k).vld = true)
    (hd : (g k).crcDis = false) (herr : ∀ b ∈ beats g k, b.parErr = false ∧ b.miscErr = false)
    (hv : (seen i₀ u n).vld = true) (hl : (seen i₀ u n).tlast = true)
    (hclr : (u n).clrMatch = false)
    (hcrc : ((circuit i₀).run u n).tcrcReg = ((Crc32Gen.circuit D).run g k).outCrc (g k))
    (ps ms ns ss : List Bool) (hsent : packetBits (beats g k) = ps ++ ms ++ ss)
    (hgot : packetBits (beats (seen i₀ u) n) = ps ++ ns ++ ss) (hlen : ms.length = ns.length)
    (hle : ms.length ≤ 32) : ((circuit i₀).run u (n + 1)).crcMatch = true ↔
      packetBits (beats (seen i₀ u) n) = packetBits (beats g k) := by
  rw [crcMatch_next hv hl hclr, hcrc, (Crc32Gen.outCrc_iff hg hd).2 herr, crc, crc, hsent, hgot,
    Crc.feed_burst (by decide) hlen hle]
  constructor
  · rintro rfl
    rfl
  · intro h
    exact (List.append_cancel_left (List.append_cancel_right h)).symm

def sentByte (_ : ℕ) : Crc32Gen.Input 8 := ⟨0x35#8, true, true, 0, false, false, false⟩

def gotByte : Input 8 :=
  ⟨0x31#8, true, true, ((Crc32Gen.circuit 8).run sentByte 0).outCrc (sentByte 0), 0, false⟩

theorem burst_detected_byte : ((circuit gotByte).run (fun _ ↦ gotByte) 1).crcMatch ≠ true := by
  intro h
  have hsame := (burst_detected sentByte 0 rfl rfl (List.forall_mem_singleton.2 ⟨rfl, rfl⟩) rfl rfl rfl
    rfl [false, false, true, true, false] [true] [false] [false, true] (by decide) (by decide) rfl
    (by decide)).1 h
  exact absurd hsame (by decide)

end QdmaTrafficGen.LinkCrc
