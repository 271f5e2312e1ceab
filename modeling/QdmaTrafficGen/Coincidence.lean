import QdmaTrafficGen.CacheAllocation
import QdmaTrafficGen.TopLevel

namespace QdmaTrafficGen.Cache

open Clocked

namespace State

variable (s : State) (i : Input)

def invalidated : State := { s with toMetadata := s.drop i.invalidateAddr }

def missed : State :=
  { s with
    toMetadata := s.miss i.inputTuple
    bram := s.bramNext { i with invalidate := false } }

def memory : Metadata × (Slot → BitVec 32) := (s.toMetadata, s.bram)

end State

def Metadata.Holds (m : Metadata) (e : Addr × Rmap) : Prop :=
  m.validBitmap e.1 = true ∧ m.valid e.2.slot = true

/-- `r` has seen the invalidate and the miss of the same cycle, one after the other, and has kept
the place that the miss was given. -/
def SeesBoth (s : State) (i : Input) (r : State) : Prop :=
  (r.memory = ((s.invalidated i).missed i).memory ∧
      ∀ e ∈ (s.invalidated i).allocate i.inputTuple, r.Holds e) ∨
    (r.memory = ((s.missed i).invalidated i).memory ∧ ∀ e ∈ s.allocate i.inputTuple, r.Holds e)

section

variable {m : Metadata} {s : State} {i : Input} {t : BitVec 96}

theorem not_holds_allocate {e : Addr × Rmap} (h : m.allocate t = some e) : ¬m.Holds e := by
  by_cases hc : m.tcbAlloc = 63 ∧ m.bitmapFull = false
  · rw [Metadata.allocate_recycled hc.1 hc.2] at h
    obtain rfl := Option.some.inj h
    intro hh
    exact Bool.false_ne_true ((Metadata.freeBitmap_invalid hc.2).symm.trans hh.1)
  · intro hh
    exact Bool.false_ne_true ((Metadata.allocate_fresh_free hc h).2.symm.trans hh.2)

theorem allocate_eq_none : m.allocate t = none ↔
    ¬(m.tcbAlloc = 63 ∧ m.bitmapFull = false) ∧ m.anyFreeL t = false ∧ m.anyFreeR t = false := by
  simp only [Metadata.allocate]
  split_ifs <;> simp_all

theorem valid_of_drop {a : Addr} {x : Slot} (h : (m.drop a).valid x = true) : m.valid x = true := by
  simp only [Metadata.drop] at h
  split at h
  case isFalse => exact h
  case isTrue =>
    by_cases hx : x = (m.reverseMap a).slot
    · rw [hx, Function.update_self] at h
      exact absurd h Bool.false_ne_true
    · rwa [Function.update_of_ne hx] at h

theorem anyWay_of_drop {a : Addr} {set : BitVec 4}
    (h : anyWay (fun w ↦ !(m.drop a).valid (w, set)) = false) :
    anyWay (fun w ↦ !m.valid (w, set)) = false := by
  rw [← Bool.not_eq_true, anyWay_iff] at h ⊢
  rintro ⟨w, hw⟩
  refine h ⟨w, ?_⟩
  rw [Bool.not_eq_true', ← Bool.not_eq_true] at hw ⊢
  exact fun hd ↦ hw (valid_of_drop hd)

theorem bitmapFull_drop (a : Addr) : (m.drop a).bitmapFull = false := by
  rw [← Bool.not_eq_true, Metadata.bitmapFull_iff]
  intro h
  have ha : Function.update m.validBitmap a false a = true := h a
  rw [Function.update_self] at ha
  exact Bool.false_ne_true ha

theorem holds_of_drop {a : Addr} {e : Addr × Rmap} (h : (m.drop a).Holds e) : m.Holds e := by
  have hv : Function.update m.validBitmap a false e.1 = true := h.1
  refine ⟨?_, valid_of_drop h.2⟩
  by_cases he : e.1 = a
  · rw [he, Function.update_self] at hv
    exact absurd hv Bool.false_ne_true
  · rwa [Function.update_of_ne he] at hv

theorem allocate_of_drop {a : Addr} (h : (m.drop a).allocate t = none) : m.allocate t = none := by
  obtain ⟨hs, hL, hR⟩ := allocate_eq_none.mp h
  exact allocate_eq_none.mpr
    ⟨fun hc ↦ hs ⟨hc.1, bitmapFull_drop a⟩, anyWay_of_drop hL, anyWay_of_drop hR⟩

theorem bramNext_of_full (h : s.allocate i.inputTuple = none) (inv : Bool) :
    s.bramNext { i with invalidate := inv } = s.bram := by
  obtain ⟨-, hL, hR⟩ := allocate_eq_none.mp h
  have hwL : s.writeL { i with invalidate := inv } = none := by simp [State.writeL, hL]
  have hwR : s.writeR { i with invalidate := inv } = none := by simp [State.writeR, hL, hR]
  rw [State.bramNext, hwL, hwR]

theorem seesBoth_iff (hi : i.invalidate = true) :
    SeesBoth s i (s.next i) ↔ s.allocate i.inputTuple = none := by
  have hm : (s.next i).toMetadata = s.drop i.invalidateAddr := by
    simp only [State.next, State.metadataNext, hi, if_true]
  have hb : (s.next i).bram = s.bram := by rw [State.bram_next, State.written_invalidate hi]
  constructor
  · rintro (⟨-, hk⟩ | ⟨-, hk⟩)
    · apply allocate_of_drop (a := i.invalidateAddr)
      refine Option.eq_none_iff_forall_ne_some.mpr fun e he ↦ ?_
      exact not_holds_allocate he (hm ▸ hk e he)
    · refine Option.eq_none_iff_forall_ne_some.mpr fun e he ↦ ?_
      exact not_holds_allocate he (holds_of_drop (hm ▸ hk e he))
  · intro h
    refine .inr ⟨?_, fun e he ↦ absurd (h.symm.trans he) (Option.some_ne_none e).symm⟩
    simp only [State.memory, State.missed, State.invalidated, hm, hb, bramNext_of_full h, Metadata.miss, h]

end

end QdmaTrafficGen.Cache

namespace QdmaTrafficGen.TopLevel

open Clocked

/-- An invalidate and what another connection does in the same cycle are both carried out, as if one
came after the other. -/
structure Commutes (s : State) (i : Input) : Prop where
  miss : s.tcbMgr.invalidate = true → s.cache.readMiss (s.cacheInput i) = true →
    Cache.SeesBoth s.cache (s.cacheInput i) (s.next i).cache
  received : s.tcbMgr.invalidate = true → s.cache.tcbAddrValid = true →
    s.cache.tcbAddr ≠ s.tcbMgr.tcpCtrlAddr → (s.next i).tcbMgr.tcbAlloc =
      Function.update (Function.update s.tcbMgr.tcbAlloc s.tcbMgr.tcpCtrlAddr false) s.cache.tcbAddr true

/-- A miss that comes with an invalidate finds no place anyway, and a segment that comes with one
has an address that is marked already. -/
structure Harmless (s : State) (i : Input) : Prop where
  miss : s.tcbMgr.invalidate = true → s.cache.readMiss (s.cacheInput i) = true →
    s.cache.allocate s.headerOut.tuple = none
  received : s.tcbMgr.invalidate = true → s.cache.tcbAddrValid = true →
    s.cache.tcbAddr ≠ s.tcbMgr.tcpCtrlAddr → s.tcbMgr.tcbAlloc s.cache.tcbAddr = true

section

variable {s : State} {i : Input}

theorem tcbAlloc_next (hi : s.tcbMgr.invalidate = true) :
    (s.next i).tcbMgr.tcbAlloc = Function.update s.tcbMgr.tcbAlloc s.tcbMgr.tcpCtrlAddr false :=
  if_pos hi

theorem commutes_iff : Commutes s i ↔ Harmless s i := by
  have hmiss : (s.tcbMgr.invalidate = true → s.cache.readMiss (s.cacheInput i) = true →
      Cache.SeesBoth s.cache (s.cacheInput i) (s.next i).cache) ↔
      (s.tcbMgr.invalidate = true → s.cache.readMiss (s.cacheInput i) = true →
        s.cache.allocate s.headerOut.tuple = none) :=
    forall_congr' fun hi ↦ forall_congr' fun _ ↦ Cache.seesBoth_iff hi
  have hreceived : (s.tcbMgr.invalidate = true → s.cache.tcbAddrValid = true →
      s.cache.tcbAddr ≠ s.tcbMgr.tcpCtrlAddr → (s.next i).tcbMgr.tcbAlloc =
        Function.update (Function.update s.tcbMgr.tcbAlloc s.tcbMgr.tcpCtrlAddr false)
          s.cache.tcbAddr true) ↔
      (s.tcbMgr.invalidate = true → s.cache.tcbAddrValid = true →
        s.cache.tcbAddr ≠ s.tcbMgr.tcpCtrlAddr → s.tcbMgr.tcbAlloc s.cache.tcbAddr = true) := by
    refine forall_congr' fun hi ↦ forall_congr' fun _ ↦ forall_congr' fun hne ↦ ?_
    rw [tcbAlloc_next hi, eq_comm, Function.update_eq_self_iff, Function.update_of_ne hne, eq_comm]
  exact ⟨fun h ↦ ⟨hmiss.mp h.miss, hreceived.mp h.received⟩,
    fun h ↦ ⟨hmiss.mpr h.miss, hreceived.mpr h.received⟩⟩

end

/-- Events of different connections commute in exactly those cycles of a run in which the one that
the invalidate displaces would have changed nothing. -/
theorem commutes_run_iff (u : ℕ → Input) (n : ℕ) :
    (∀ k < n, Commutes (circuit.run u k) (u k)) ↔ ∀ k < n, Harmless (circuit.run u k) (u k) :=
  forall₂_congr fun _ _ ↦ commutes_iff

/-- A FIN that belongs to no connection, and three cycles later a SYN from another host. -/
def crossing : ℕ → Input
  | 0 => { h2cTdata := Datapath.segment 1000 0 1, h2cTvalid := true }
  | 3 => { h2cTdata := Datapath.segment 1000 0 2 ||| BitVec.twoPow 512 272, h2cTvalid := true }
  | _ => {}

/-- The FIN is reset when the SYN is looked up, and the SYN gets no place in the cache. -/
theorem crossing_not_commutes : ¬∀ k, Commutes (circuit.run crossing k) (crossing k) := by
  have hrun : (circuit.run crossing 5).tcbMgr.invalidate = true ∧
      (circuit.run crossing 5).cache.readMiss ((circuit.run crossing 5).cacheInput (crossing 5)) = true ∧
      ((circuit.run crossing 5).cache.allocate (circuit.run crossing 5).headerOut.tuple).isSome = true := by
    decide +kernel
  obtain ⟨hi, hm, ha⟩ := hrun
  intro h
  rw [(commutes_iff.mp (h 5)).miss hi hm] at ha
  exact Bool.false_ne_true ha

end QdmaTrafficGen.TopLevel
