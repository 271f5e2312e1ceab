import Mathlib.Algebra.GroupWithZero.Nat
import QdmaTrafficGen.Clocked.Run
import QdmaTrafficGen.Clocked.Scan
import QdmaTrafficGen.Packages
import QdmaTrafficGen.Toeplitz

namespace QdmaTrafficGen.Cache

open Clocked Toeplitz

abbrev Way := Fin 4

-- the instance that the literals of `Way` need, under one name everywhere
scoped instance way_neZero : NeZero 4 := Nat.instNeZeroSucc

abbrev Slot := Way × BitVec 4

/-- `cache_rmap_t`; `side` is 1 for the left hash. -/
structure Rmap where
  valid : Bool := false
  side : Bool := false
  way : Way := 0
  set : BitVec 4 := 0
  deriving DecidableEq, Repr

def Rmap.slot (r : Rmap) : Slot := (r.way, r.set)

structure Metadata where
  tcbAlloc : Addr := 0
  validBitmap : Addr → Bool := fun _ ↦ false
  valid : Slot → Bool := fun _ ↦ false
  reverseMap : Addr → Rmap := fun _ ↦ {}

/-- The registers of `cache` and the contents and output registers of its four BRAMs. -/
structure State extends Metadata where
  reqValid : Bool := false
  readD : Bool := false
  tcbAddrValid : Bool := false
  tcbAddr : Addr := 0
  bram : Slot → BitVec 32 := fun _ ↦ 0
  doutL : Way → BitVec 32 := fun _ ↦ 0
  doutR : Way → BitVec 32 := fun _ ↦ 0

/-- The ports of `cache`. What a BRAM port reads while the other port writes the same word is not
specified, so `collideL` and `collideR` leave it to the environment. -/
structure Input where
  read : Bool := false
  inputTuple : BitVec 96 := 0
  invalidate : Bool := false
  invalidateAddr : Addr := 0
  collideL : Way → BitVec 32 := fun _ ↦ 0
  collideR : Way → BitVec 32 := fun _ ↦ 0

def tagL (t : BitVec 96) : BitVec 26 := (hashOut1 t).extractLsb' 6 26

def tagR (t : BitVec 96) : BitVec 26 := (hashOut2 t).extractLsb' 6 26

def setL (t : BitVec 96) : BitVec 4 := (hashOut1 t).extractLsb' 0 4

def setR (t : BitVec 96) : BitVec 4 := (hashOut2 t).extractLsb' 0 4

/-- `TAG[31:6] | TCB ADDR[5:0]`. -/
def word (tag : BitVec 26) (a : Addr) : BitVec 32 := tag ++ a

def wordTag (d : BitVec 32) : BitVec 26 := d.extractLsb' 6 26

def wordAddr (d : BitVec 32) : Addr := d.extractLsb' 0 6

@[simp] theorem wordTag_word (tag : BitVec 26) (a : Addr) : wordTag (word tag a) = tag := by
  simp only [wordTag, word]
  exact BitVec.extractLsb'_append_eq_left

@[simp] theorem wordAddr_word (tag : BitVec 26) (a : Addr) : wordAddr (word tag a) = a := by
  simp only [wordAddr, word]
  exact BitVec.extractLsb'_append_eq_right

def ways : List Way := [0, 1, 2, 3]

theorem mem_ways : ∀ w : Way, w ∈ ways := by decide

def anyWay (p : Way → Bool) : Bool := ways.any p

theorem anyWay_iff {p : Way → Bool} : anyWay p = true ↔ ∃ w, p w = true := by
  simp only [anyWay, List.any_eq_true]
  exact ⟨fun ⟨w, _, hw⟩ ↦ ⟨w, hw⟩, fun ⟨w, hw⟩ ↦ ⟨w, mem_ways w, hw⟩⟩

theorem lastWhere_ways {p : Way → Bool} (h : anyWay p = true) : p (lastWhere ways p 0) = true :=
  lastWhere_spec (List.any_eq_true.mp h)

namespace Metadata

variable (m : Metadata) (t : BitVec 96)

def freeLOneHot (w : Way) : Bool := !m.valid (w, setL t)

def freeROneHot (w : Way) : Bool := !m.valid (w, setR t)

def anyFreeL : Bool := anyWay (m.freeLOneHot t)

def anyFreeR : Bool := anyWay (m.freeROneHot t)

def freeL : Way := lastWhere ways (m.freeLOneHot t) 0

def freeR : Way := lastWhere ways (m.freeROneHot t) 0

def freeLCnt : ℕ := ways.countP (m.freeLOneHot t)

def freeRCnt : ℕ := ways.countP (m.freeROneHot t)

def addrs : List Addr := (List.range 64).map (BitVec.ofNat 6)

def bitmapFull : Bool := addrs.all m.validBitmap

def freeBitmap : Addr := lastWhere addrs (fun a ↦ !m.validBitmap a) 0

def leftEntry : Rmap := ⟨true, true, m.freeL t, setL t⟩

def rightEntry : Rmap := ⟨true, false, m.freeR t, setR t⟩

/-- The address and the reverse-map entry that a read miss of `t` sets, if it finds a place. -/
def allocate : Option (Addr × Rmap) :=
  if m.tcbAlloc = 63 then
    -- the recycled address keeps the way and set of its last use
    if !m.bitmapFull then
      some (m.freeBitmap, { m.reverseMap m.freeBitmap with valid := true, side := true })
    else if m.anyFreeL t then some (m.tcbAlloc, m.leftEntry t)
    else if m.anyFreeR t then some (m.tcbAlloc, m.rightEntry t)
    else none
  else if m.anyFreeL t && m.anyFreeR t then
    if m.freeRCnt t ≤ m.freeLCnt t then some (m.tcbAlloc, m.leftEntry t)
    else some (m.tcbAlloc, m.rightEntry t)
  else if m.anyFreeL t then some (m.tcbAlloc, m.leftEntry t)
  else if m.anyFreeR t then some (m.tcbAlloc, m.rightEntry t)
  else none

def install (a : Addr) (r : Rmap) : Metadata where
  tcbAlloc := if m.tcbAlloc = 63 then m.tcbAlloc else m.tcbAlloc + 1
  validBitmap := Function.update m.validBitmap a true
  valid := Function.update m.valid r.slot true
  reverseMap := Function.update m.reverseMap a r

def miss : Metadata :=
  match m.allocate t with
  | some (a, r) => m.install a r
  | none => m

def drop (a : Addr) : Metadata where
  tcbAlloc := m.tcbAlloc
  validBitmap := Function.update m.validBitmap a false
  valid := if (m.reverseMap a).valid then Function.update m.valid (m.reverseMap a).slot false
    else m.valid
  reverseMap := Function.update m.reverseMap a { m.reverseMap a with valid := false }

end Metadata

namespace State

variable (s : State) (i : Input)

def hitLOneHot (w : Way) : Bool :=
  s.valid (w, setL i.inputTuple) && wordTag (s.doutL w) == tagL i.inputTuple

def hitROneHot (w : Way) : Bool :=
  s.valid (w, setR i.inputTuple) && wordTag (s.doutR w) == tagR i.inputTuple

def anyHitL : Bool := anyWay (s.hitLOneHot i)

def anyHitR : Bool := anyWay (s.hitROneHot i)

def hitWayL : Way := lastWhere ways (s.hitLOneHot i) 0

def hitWayR : Way := lastWhere ways (s.hitROneHot i) 0

def readMiss : Bool := s.readD && !s.anyHitL i && !s.anyHitR i

def writeL : Option (Slot × BitVec 32) :=
  let t := i.inputTuple
  if s.readMiss i && !i.invalidate then
    if s.tcbAlloc = 63 then
      if s.anyFreeL t then some ((s.freeL t, setL t), word (tagL t) 0) else none
    else if s.anyFreeL t && s.anyFreeR t then
      if s.freeRCnt t ≤ s.freeLCnt t then some ((s.freeL t, setL t), word (tagL t) s.tcbAlloc)
      else none
    else if s.anyFreeL t then some ((s.freeL t, setL t), word (tagL t) s.tcbAlloc)
    else none
  else none

def writeR : Option (Slot × BitVec 32) :=
  let t := i.inputTuple
  if s.readMiss i && !i.invalidate then
    if s.tcbAlloc = 63 then
      if s.anyFreeL t then none
      else if s.anyFreeR t then some ((s.freeR t, setR t), word (tagR t) 0) else none
    else if s.anyFreeL t && s.anyFreeR t then
      if s.freeRCnt t ≤ s.freeLCnt t then none
      else some ((s.freeR t, setR t), word (tagR t) s.tcbAlloc)
    else if s.anyFreeL t then none
    else if s.anyFreeR t then some ((s.freeR t, setR t), word (tagR t) s.tcbAlloc)
    else none
  else none

/-- One port of the BRAMs: it shows its own write at once, leaves open what it shows of a word
that the other port writes, and reads the stored word otherwise. -/
def portRead (own other : Option (Slot × BitVec 32)) (collide : Way → BitVec 32) (set : BitVec 4)
    (w : Way) : BitVec 32 :=
  match own, other with
  | some (x, d), _ => if x = (w, set) then d else s.bram (w, set)
  | none, some (x, _) => if x = (w, set) then collide w else s.bram (w, set)
  | none, none => s.bram (w, set)

def bramNext : Slot → BitVec 32 :=
  let written (write : Option (Slot × BitVec 32)) (b : Slot → BitVec 32) : Slot → BitVec 32 :=
    match write with
    | some (x, d) => Function.update b x d
    | none => b
  written (s.writeR i) (written (s.writeL i) s.bram)

def metadataNext : Metadata :=
  if i.invalidate then s.drop i.invalidateAddr
  else if s.readMiss i then s.miss i.inputTuple
  else s.toMetadata

def next : State where
  toMetadata := s.metadataNext i
  reqValid := i.read
  readD := i.read
  -- a hit and a miss are both answered one cycle after the compare
  tcbAddrValid := s.reqValid && !s.readMiss i || s.reqValid
  tcbAddr :=
    if s.anyHitL i then wordAddr (s.doutL (s.hitWayL i))
    else if s.anyHitR i then wordAddr (s.doutR (s.hitWayR i))
    else if s.readMiss i then s.tcbAlloc
    else s.tcbAddr
  bram := s.bramNext i
  doutL := s.portRead (s.writeL i) (s.writeR i) i.collideL (setL i.inputTuple)
  doutR := s.portRead (s.writeR i) (s.writeL i) i.collideR (setR i.inputTuple)

end State

def circuit : Circuit Input State := ⟨{}, State.next⟩

theorem run_succ (u : ℕ → Input) (n : ℕ) :
    circuit.run u (n + 1) = (circuit.run u n).next (u n) := rfl

end QdmaTrafficGen.Cache
