import QdmaTrafficGen.Clocked.Ring
import QdmaTrafficGen.Clocked.Run
import QdmaTrafficGen.TrafficGen

namespace QdmaTrafficGen.TrafficGen

open Clocked

/-- `traffic_gen` after a reset during which `cycles_per_pkt` is `cycles`. -/
def circuit (cycles : BitVec 32) : Circuit Input State := ⟨{ cyclesPkt := cycles }, State.next⟩

def beatsPerPkt (pktSize : BitVec 16) : ℕ := (pktSize.toNat + 63) / 64

def HasHeader (i : Input) (b : Beat) : Prop :=
  b.tdata.extractLsb' 80 432 = i.headerEthBuf ++ i.headerIpBuf ++ i.headerTransBuf

def HasTrailer (b : Beat) : Prop := b.tdata.extractLsb' 0 32 = crc

def produced (cycles : BitVec 32) (u : ℕ → Input) (n : ℕ) : Option Beat :=
  ((circuit cycles).run u n).produced (u n)

def transferred (cycles : BitVec 32) (u : ℕ → Input) (n : ℕ) : ℕ :=
  (collect (produced cycles u) n).length

/-- The trailer is on the beat with `tlast`, and that beat is the one after which `TRANSFER` ends. -/
def Agrees (s : State) (i : Input) : Prop :=
  (HasTrailer (s.beat i) ↔ (s.beat i).tlast = true) ∧
    (s.nextState i ≠ .transfer ↔ i.tready = true ∧ (s.beat i).tlast = true)

def fullSpeed (p : BitVec 16) : Input :=
  { configIn := { pktSize := p }, flowRunning := true, tready := true }

/-- The generator after `k` beats of packets of `K` beats. -/
structure InStep (K : ℕ) (s : State) (k : ℕ) : Prop where
  counter : s.currState = .transfer → s.transCounter.toNat = 64 * (k % K)
  header : s.currState = .transfer → (s.isHeader = true ↔ k % K = 0)
  outside : s.currState ≠ .transfer → k % K = 0

/-- The generator with `j` beats of a packet behind it, none of them delayed. -/
structure Sending (C : BitVec 32) (j : ℕ) (s : State) : Prop where
  currState : s.currState = .transfer
  transCounter : s.transCounter.toNat = 64 * j
  waitCounter : s.waitCounter.toNat = j
  isHeader : s.isHeader = true ↔ j = 0
  cyclesPkt : s.cyclesPkt = C

/-- The generator between two packets, `j` cycles after the first beat of the first one. -/
structure Resting (C : BitVec 32) (j : ℕ) (s : State) : Prop where
  currState : s.currState = .wait
  waitCounter : s.waitCounter.toNat = j
  cyclesPkt : s.cyclesPkt = C

section

variable {s : State} {i : Input} {p : BitVec 16}

theorem beatsPerPkt_pos (h : 64 ≤ p.toNat) : 0 < beatsPerPkt p := Nat.div_pos (by omega) (by omega)

theorem lastBeat_toNat (h : 64 ≤ i.configIn.pktSize.toNat) :
    i.lastBeat.toNat = i.configIn.pktSize.toNat - 64 := by
  have hlt := i.configIn.pktSize.isLt
  simp only [Input.lastBeat, BYTES_PER_BEAT, BitVec.toNat_sub, BitVec.toNat_setWidth]
  change (2 ^ 32 - 64 + i.configIn.pktSize.toNat % 2 ^ 32) % 2 ^ 32 = _
  omega

theorem atEnd_iff (h : 64 ≤ i.configIn.pktSize.toNat) :
    s.atEnd i = true ↔ i.configIn.pktSize.toNat ≤ s.transCounter.toNat + 64 := by
  have hlt := s.transCounter.isLt
  simp only [State.atEnd, decide_eq_true_eq, BitVec.le_def, lastBeat_toNat h, BitVec.toNat_setWidth]
  omega

theorem signedEnd_iff (h : 64 ≤ i.configIn.pktSize.toNat) :
    i.lastBeat.sle (s.transCounter.signExtend 32) = true ↔
      s.transCounter.toNat < 2 ^ 15 ∧ i.configIn.pktSize.toNat ≤ s.transCounter.toNat + 64 := by
  have hlt := i.configIn.pktSize.isLt
  have hlast : i.lastBeat.toInt = i.configIn.pktSize.toNat - 64 := by
    rw [BitVec.toInt_eq_toNat_of_lt (by rw [lastBeat_toNat h]; omega), lastBeat_toNat h]
    omega
  rw [BitVec.sle_iff_toInt_le, hlast, BitVec.toInt_signExtend_of_le (by omega), BitVec.toInt_eq_toNat_cond]
  split <;> omega

theorem extract_trailer (data : BitVec 512) (w : BitVec 32) :
    (data.extractLsb' 32 480 ++ w).extractLsb' 80 432 = data.extractLsb' 80 432 := by
  rw [BitVec.extractLsb'_append_eq_of_le (by decide)]
  ext j hj
  simp only [BitVec.getElem_extractLsb', BitVec.getLsbD_extractLsb']
  rw [show 32 + (80 - 32 + j) = 80 + j by omega, decide_eq_true (by omega), Bool.true_and]

theorem extract_header :
    i.header.extractLsb' 80 432 = i.headerEthBuf ++ i.headerIpBuf ++ i.headerTransBuf := by
  rw [Input.header, BitVec.extractLsb'_append_eq_of_le (by decide),
    BitVec.extractLsb'_append_eq_of_le (by decide), BitVec.extractLsb'_append_eq_left]

theorem topByte_header :
    (i.headerEthBuf ++ i.headerIpBuf ++ i.headerTransBuf).extractLsb' 424 8 = 0#8 := by
  rw [BitVec.extractLsb'_append_eq_of_le (by decide), BitVec.extractLsb'_append_eq_of_le (by decide),
    Input.headerEthBuf, BitVec.extractLsb'_append_eq_of_le (by decide),
    BitVec.extractLsb'_append_eq_of_le (by decide)]
  decide

theorem padding_ne_header : (BitVec.replicate 64 0x41#8).extractLsb' 80 432 ≠
    i.headerEthBuf ++ i.headerIpBuf ++ i.headerTransBuf := by
  intro h
  have hb : ((BitVec.replicate 64 0x41#8).extractLsb' 80 432).extractLsb' 424 8 = 0#8 := by
    rw [h, topByte_header]
  exact absurd hb (by decide +kernel)

theorem hasHeader_iff : HasHeader i (s.beat i) ↔ s.isHeader = true := by
  have hd : (s.dataBuf i).extractLsb' 80 432 =
      (if s.isHeader then i.header else BitVec.replicate 64 0x41#8).extractLsb' 80 432 := by
    unfold State.dataBuf
    generalize (if s.isHeader then i.header else BitVec.replicate 64 0x41#8) = data
    dsimp only
    split
    case isTrue => exact extract_trailer data crc
    case isFalse => rfl
  rw [HasHeader, State.beat, hd]
  split
  case isTrue h => exact iff_of_true extract_header h
  case isFalse h => exact iff_of_false padding_ne_header h

theorem hasTrailer_iff :
    HasTrailer (s.beat i) ↔ i.lastBeat.sle (s.transCounter.signExtend 32) = true := by
  unfold HasTrailer State.beat State.dataBuf
  dsimp only
  split
  case isTrue h => exact iff_of_true BitVec.extractLsb'_append_eq_right h
  case isFalse h =>
    refine iff_of_false ?_ h
    split
    case isTrue =>
      rw [Input.header, BitVec.extractLsb'_append_eq_right]
      decide
    case isFalse => decide +kernel

theorem produced_eq_none (h : s.currState ≠ .transfer) : s.produced i = none := by
  simp [State.produced, State.tvalid, h]

theorem produced_transfer (h : s.currState = .transfer) :
    s.produced i = if i.tready then some (s.beat i) else none := by
  simp [State.produced, State.tvalid, h]

theorem tlast_iff (h : s.currState = .transfer) : (s.beat i).tlast = true ↔ s.atEnd i = true := by
  simp [State.beat, State.tvalid, h]

theorem next_outside (h : s.currState ≠ .transfer) :
    (s.next i).transCounter = 0 ∧ (s.next i).isHeader = true := by
  cases hc : s.currState with
  | transfer => exact absurd hc h
  | idle => simp [State.next, hc]
  | wait => simp [State.next, hc]

theorem next_stalled (h : s.currState = .transfer) (hr : i.tready = false) : s.next i = s := by
  obtain ⟨curr, wait, trans, header, cycles⟩ := s
  obtain rfl : curr = .transfer := h
  simp [State.next, State.nextState, hr]

theorem next_beat (h : s.currState = .transfer) (hr : i.tready = true) :
    (s.next i).currState = (if s.atEnd i then .wait else .transfer) ∧
      (s.next i).transCounter = (if s.atEnd i then 0 else s.transCounter + 64) ∧
      (s.next i).isHeader = false ∧ (s.next i).waitCounter = s.waitCounter + 1 ∧
      (s.next i).cyclesPkt = s.cyclesPkt := by
  obtain ⟨curr, wait, trans, header, cycles⟩ := s
  obtain rfl : curr = .transfer := h
  simp only [State.next, State.nextState, hr, if_true, Bool.true_and, true_and]
  exact ⟨rfl, trivial⟩

theorem atEnd_iff_mod {k : ℕ} (hp : 64 ≤ i.configIn.pktSize.toNat)
    (hc : s.transCounter.toNat = 64 * (k % beatsPerPkt i.configIn.pktSize)) :
    s.atEnd i = true ↔ k % beatsPerPkt i.configIn.pktSize = beatsPerPkt i.configIn.pktSize - 1 := by
  have hlt := Nat.mod_lt k (beatsPerPkt_pos hp)
  rw [atEnd_iff hp, hc]
  unfold beatsPerPkt at hlt ⊢
  omega

theorem InStep.beat {k : ℕ} (h : InStep (beatsPerPkt i.configIn.pktSize) s k)
    (hp : 64 ≤ i.configIn.pktSize.toNat) (ht : s.currState = .transfer) (hr : i.tready = true) :
    InStep (beatsPerPkt i.configIn.pktSize) (s.next i) (k + 1) := by
  obtain ⟨hcurr, hcount, hhead, -⟩ := next_beat ht hr
  have hpos := beatsPerPkt_pos hp
  have hend := atEnd_iff_mod hp (h.counter ht)
  have hmod : (k + 1) % beatsPerPkt i.configIn.pktSize =
      Ring.succ (beatsPerPkt i.configIn.pktSize) (k % beatsPerPkt i.configIn.pktSize) := by
    rw [Ring.succ_eq_mod (Nat.mod_lt k hpos), Nat.mod_add_mod]
  cases he : s.atEnd i with
  | true =>
    rw [he, if_pos rfl] at hcurr
    rw [Ring.succ, if_pos (hend.mp he)] at hmod
    refine ⟨fun hc ↦ ?_, fun hc ↦ ?_, fun _ ↦ hmod⟩
    · exact absurd (hcurr.symm.trans hc) (by decide)
    · exact absurd (hcurr.symm.trans hc) (by decide)
  | false =>
    have hne : k % beatsPerPkt i.configIn.pktSize ≠ beatsPerPkt i.configIn.pktSize - 1 := by
      intro hk
      rw [hend.mpr hk] at he
      exact Bool.false_ne_true he.symm
    rw [he] at hcurr hcount
    rw [Ring.succ, if_neg hne] at hmod
    refine ⟨fun _ ↦ ?_, fun _ ↦ ?_, fun hc ↦ absurd hcurr hc⟩
    · have hlt := Nat.mod_lt k hpos
      have hmax : beatsPerPkt i.configIn.pktSize ≤ 1024 := by
        unfold beatsPerPkt
        omega
      have hold := h.counter ht
      rw [hcount, hmod, if_neg Bool.false_ne_true, BitVec.toNat_add]
      change (s.transCounter.toNat + 64) % 2 ^ 16 = _
      omega
    · rw [hhead, hmod]
      exact iff_of_false Bool.false_ne_true (Nat.succ_ne_zero _)

theorem InStep.next {k : ℕ} (h : InStep (beatsPerPkt i.configIn.pktSize) s k)
    (hp : 64 ≤ i.configIn.pktSize.toNat) :
    InStep (beatsPerPkt i.configIn.pktSize) (s.next i) (k + (s.produced i).toList.length) := by
  by_cases ht : s.currState = .transfer
  · rw [produced_transfer ht]
    cases hr : i.tready with
    | false =>
      rw [next_stalled ht hr]
      exact h
    | true => exact h.beat hp ht hr
  · obtain ⟨hcount, hhead⟩ := next_outside (i := i) ht
    have hk := h.outside ht
    rw [produced_eq_none ht]
    refine ⟨fun _ ↦ ?_, fun _ ↦ ?_, fun _ ↦ hk⟩
    · rw [hcount, Option.toList_none, List.length_nil, Nat.add_zero, hk]
      rfl
    · rw [hhead]
      exact iff_of_true rfl hk

section

variable {K j : ℕ} {C : BitVec 32}

theorem Sending.next (h : Sending C j s) (hp : 64 ≤ i.configIn.pktSize.toNat) (hr : i.tready = true)
    (hj : j < beatsPerPkt i.configIn.pktSize) :
    if j + 1 < beatsPerPkt i.configIn.pktSize then Sending C (j + 1) (s.next i)
    else Resting C (j + 1) (s.next i) := by
  obtain ⟨hcurr, hcount, hhead, hwait, hcycles⟩ := next_beat h.currState hr
  have hend : s.atEnd i = true ↔ ¬j + 1 < beatsPerPkt i.configIn.pktSize := by
    rw [atEnd_iff hp, h.transCounter]
    unfold beatsPerPkt at hj ⊢
    omega
  have hmax : beatsPerPkt i.configIn.pktSize ≤ 1024 := by
    unfold beatsPerPkt
    omega
  have hw : (s.next i).waitCounter.toNat = j + 1 := by
    rw [hwait, BitVec.toNat_add, h.waitCounter]
    change (j + 1) % 2 ^ 32 = j + 1
    omega
  have hc := h.transCounter
  split
  case isTrue hlt =>
    have he : s.atEnd i = false := by
      rw [← Bool.not_eq_true, hend]
      exact not_not_intro hlt
    rw [he] at hcurr hcount
    refine ⟨hcurr, ?_, hw, ?_, hcycles.trans h.cyclesPkt⟩
    · rw [hcount, if_neg Bool.false_ne_true, BitVec.toNat_add]
      change (s.transCounter.toNat + 64) % 2 ^ 16 = _
      omega
    · rw [hhead]
      exact iff_of_false Bool.false_ne_true (Nat.succ_ne_zero j)
  case isFalse hlt =>
    rw [if_pos (hend.mpr hlt)] at hcurr
    exact ⟨hcurr, hw, hcycles.trans h.cyclesPkt⟩

theorem Resting.next (h : Resting C j s) (hr : i.tready = true) (hf : i.flowRunning = true)
    (hC : 0 < C.toNat) :
    if j + 1 < C.toNat then Resting C (j + 1) (s.next i) else Sending i.cyclesGranted 0 (s.next i) := by
  obtain ⟨curr, wait, trans, header, cycles⟩ := s
  obtain ⟨rfl, rfl, rfl⟩ := h
  have hlt := cycles.isLt
  have hrest : cycles - 1 ≤ wait ↔ ¬wait.toNat + 1 < cycles.toNat := by bv_omega
  split
  case isTrue h =>
    have hno := hrest.not_left.mpr h
    simp only [State.next, State.nextState, State.rested, hr, hf, hno, decide_false, Bool.and_false,
      Bool.false_eq_true, if_false]
    refine ⟨rfl, ?_, rfl⟩
    bv_omega
  case isFalse h =>
    have hyes := hrest.mpr h
    simp only [State.next, State.nextState, State.rested, hr, hf, hyes, decide_true, Bool.and_true]
    exact ⟨rfl, rfl, rfl, iff_of_true rfl rfl, rfl⟩

theorem sending_of_idle (h : s.currState = .idle) (hr : i.tready = true) (hf : i.flowRunning = true) :
    Sending i.cyclesGranted 0 (s.next i) := by
  obtain ⟨curr, wait, trans, header, cycles⟩ := s
  obtain rfl : curr = .idle := h
  simp only [State.next, State.nextState, hr, hf, Bool.and_self, if_true]
  exact ⟨rfl, rfl, rfl, iff_of_true rfl rfl, rfl⟩

theorem agrees_iff (h : s.currState = .transfer) (hp : 64 ≤ i.configIn.pktSize.toNat) :
    Agrees s i ↔ s.transCounter.toNat < 2 ^ 15 ∨
      s.transCounter.toNat + 64 < i.configIn.pktSize.toNat := by
  have hleave : s.nextState i ≠ .transfer ↔ i.tready = true ∧ (s.beat i).tlast = true := by
    rw [tlast_iff h]
    simp [State.nextState, h]
  rw [Agrees, and_iff_left hleave, hasTrailer_iff, signedEnd_iff hp, tlast_iff h, atEnd_iff hp]
  omega

end

section

variable {cycles : BitVec 32} {u : ℕ → Input}

theorem transferred_succ (n : ℕ) : transferred cycles u (n + 1) =
    transferred cycles u n + (produced cycles u n).toList.length := by
  rw [transferred, collect_succ, List.length_append]
  rfl

theorem inStep (h64 : 64 ≤ p.toNat) (hp : ∀ n, (u n).configIn.pktSize = p) (n : ℕ) :
    InStep (beatsPerPkt p) ((circuit cycles).run u n) (transferred cycles u n) := by
  induction n with
  | zero => exact ⟨nofun, nofun, fun _ ↦ Nat.zero_mod _⟩
  | succ n ih =>
    have hn := hp n
    subst hn
    rw [transferred_succ]
    exact ih.next h64

/-- Every packet has `ceil(pkt_size / 64)` beats: the last one and no other has `tlast`, the first
one and no other has the header, and `tvalid` stays high from the one to the other. -/
theorem packet_shape (h64 : 64 ≤ p.toNat) (hp : ∀ n, (u n).configIn.pktSize = p) (n : ℕ) :
    (∀ b, produced cycles u n = some b →
      (b.tlast = true ↔ transferred cycles u n % beatsPerPkt p = beatsPerPkt p - 1) ∧
        (HasHeader (u n) b ↔ transferred cycles u n % beatsPerPkt p = 0)) ∧
      (((circuit cycles).run u n).tvalid = false → transferred cycles u n % beatsPerPkt p = 0) := by
  have h : InStep (beatsPerPkt p) ((circuit cycles).run u n) (transferred cycles u n) :=
    inStep h64 hp n
  refine ⟨fun b hb ↦ ?_, fun hv ↦ h.outside ?_⟩
  · have ht : ((circuit cycles).run u n).currState = .transfer := by
      by_contra ht
      rw [produced, produced_eq_none ht] at hb
      exact Option.some_ne_none b hb.symm
    rw [produced, produced_transfer ht, Option.ite_none_right_eq_some] at hb
    obtain ⟨-, hb⟩ := hb
    obtain rfl := Option.some.inj hb
    have hn := hp n
    subst hn
    rw [tlast_iff ht, hasHeader_iff, h.header ht, atEnd_iff_mod h64 (h.counter ht)]
    exact ⟨Iff.rfl, Iff.rfl⟩
  · simpa [State.tvalid] using hv

theorem packet_shape_130 :
    (((circuit 0).run (fun _ ↦ fullSpeed 130) 3).beat (fullSpeed 130)).tlast = true ∧
      ¬HasHeader (fullSpeed 130) (((circuit 0).run (fun _ ↦ fullSpeed 130) 3).beat (fullSpeed 130)) := by
  obtain ⟨hlast, hheader⟩ := (packet_shape (p := 130) (by decide) (fun _ ↦ rfl) 3).1 _
    (show produced 0 (fun _ ↦ fullSpeed 130) 3 = some _ from rfl)
  have hthird : transferred 0 (fun _ ↦ fullSpeed 130) 3 % beatsPerPkt 130 = 2 := by decide +kernel
  refine ⟨hlast.mpr (hthird.trans (by decide)), fun h ↦ ?_⟩
  exact absurd (hthird.symm.trans (hheader.mp h)) (by decide)

theorem sending_fullSpeed (h64 : 64 ≤ p.toNat) {j : ℕ} (hj : j < beatsPerPkt p) :
    Sending (fullSpeed p).cyclesGranted j ((circuit cycles).run (fun _ ↦ fullSpeed p) (j + 1)) := by
  induction j with
  | zero => exact sending_of_idle (s := { cyclesPkt := cycles }) (i := fullSpeed p) rfl rfl rfl
  | succ j ih =>
    have hlt : j + 1 < beatsPerPkt (fullSpeed p).configIn.pktSize := hj
    have h := (ih (by omega)).next (i := fullSpeed p) h64 rfl (by omega)
    rwa [if_pos hlt] at h

theorem not_agrees_fullSpeed (h : 2 ^ 15 < p.toNat) :
    ∃ n, ((circuit 0).run (fun _ ↦ fullSpeed p) n).currState = .transfer ∧
      ¬Agrees ((circuit 0).run (fun _ ↦ fullSpeed p) n) (fullSpeed p) := by
  have h64 : 64 ≤ p.toNat := by omega
  have hpos := beatsPerPkt_pos h64
  have hs : Sending (fullSpeed p).cyclesGranted (beatsPerPkt p - 1)
      ((circuit 0).run (fun _ ↦ fullSpeed p) (beatsPerPkt p - 1 + 1)) :=
    sending_fullSpeed h64 (by omega)
  refine ⟨beatsPerPkt p - 1 + 1, hs.currState, ?_⟩
  rw [agrees_iff hs.currState h64, hs.transCounter]
  change ¬(_ ∨ _ < p.toNat)
  unfold beatsPerPkt at *
  omega

theorem agrees_run (h64 : 64 ≤ p.toNat) (h : p.toNat ≤ 2 ^ 15)
    (hp : ∀ n, (u n).configIn.pktSize = p) (n : ℕ)
    (ht : ((circuit cycles).run u n).currState = .transfer) :
    Agrees ((circuit cycles).run u n) (u n) := by
  have hlt := Nat.mod_lt (transferred cycles u n) (beatsPerPkt_pos h64)
  rw [agrees_iff ht (by rw [hp n]; exact h64), (inStep h64 hp n).counter ht]
  left
  unfold beatsPerPkt at *
  omega

/-- A packet size is marked alike by trailer and `tlast` in all runs as long as the counter at its
last beat is not negative as a signed number. -/
theorem trailer_iff (h64 : 64 ≤ p.toNat) :
    (∀ s i, s.currState = .transfer → i.configIn.pktSize = p →
      (Agrees s i ↔ s.transCounter.toNat < 2 ^ 15 ∨ s.transCounter.toNat + 64 < p.toNat)) ∧
      ((∀ cycles u, (∀ n, (u n).configIn.pktSize = p) →
        ∀ n, ((circuit cycles).run u n).currState = .transfer →
          Agrees ((circuit cycles).run u n) (u n)) ↔ p.toNat ≤ 2 ^ 15) := by
  refine ⟨fun s i ht hp ↦ ?_, fun h ↦ ?_, fun h cycles u hp n ht ↦ agrees_run h64 h hp n ht⟩
  · subst hp
    exact agrees_iff ht h64
  · by_contra hlarge
    obtain ⟨n, ht, hn⟩ := not_agrees_fullSpeed (Nat.lt_of_not_le hlarge)
    exact hn (h 0 _ (fun _ ↦ rfl) n ht)

theorem trailer_missing : ¬∀ p : BitVec 16, 64 ≤ p.toNat → ∀ cycles u,
    (∀ n, (u n).configIn.pktSize = p) → ∀ n, ((circuit cycles).run u n).currState = .transfer →
      Agrees ((circuit cycles).run u n) (u n) := by
  intro h
  obtain ⟨n, ht, hn⟩ := not_agrees_fullSpeed (p := 40000) (by decide)
  exact hn (h 40000 (by decide) 0 _ (fun _ ↦ rfl) n ht)

theorem trailer_128 : Agrees ((circuit 0).run (fun _ ↦ fullSpeed 128) 1) (fullSpeed 128) :=
  (trailer_iff (p := 128) (by decide)).2.mpr (by decide) 0 _ (fun _ ↦ rfl) 1 rfl

end

end

end QdmaTrafficGen.TrafficGen
