import QdmaTrafficGen.Ranges.Extents

open Ranges

namespace QdmaTrafficGen.ResourceMgmt

/-- The conversion of an integer to `uint32_t`. -/
def u32 (z : ℤ) : ℕ := (z % 2 ^ 32).toNat

/-- The conversion of an integer to `int`. -/
def s32 (z : ℤ) : ℤ := (z + 2 ^ 31) % 2 ^ 32 - 2 ^ 31

@[ext]
structure ResourceEntry where
  qbase : ℤ
  totalQ : ℕ
  deriving DecidableEq

namespace ResourceEntry

def extent (e : ResourceEntry) : Extent := ⟨e.qbase, e.totalQ⟩

def queues (e : ResourceEntry) : List ℤ := e.extent.cells

def none : ResourceEntry := ⟨-1, 0⟩

end ResourceEntry

def errNoMem : ℤ := 2
def errRmDevExists : ℤ := 10
def errRmDevNotExists : ℤ := 11
def errRmNoQueuesLeft : ℤ := 12
def errRmQmaxConfRejected : ℤ := 13

/-- `qdma_calloc` of one record; `mem` tells which of the coming calls get memory, all that it does
not name do. -/
def qdmaCalloc : List Bool → Bool × List Bool
  | [] => (true, [])
  | ok :: mem => (ok, mem)

/-- The loop of `qdma_submit_to_free_list` that puts a node before the first one that starts later,
or behind the last one. -/
def insertNode (e : ResourceEntry) : List ResourceEntry → List ResourceEntry
  | [] => [e]
  | node :: l => if node.qbase > e.qbase then e :: node :: l else node :: insertNode e l

/-- The loop of `qdma_submit_to_free_list` that joins nodes. -/
def stretchNode (streach : ResourceEntry) : List ResourceEntry → List ResourceEntry
  | [] => [streach]
  | node :: l =>
    if u32 (streach.qbase + streach.totalQ) = u32 node.qbase then
      stretchNode { streach with totalQ := u32 (streach.totalQ + node.totalQ) } l
    else streach :: stretchNode node l

def defragment : List ResourceEntry → List ResourceEntry
  | [] => []
  | node :: l => stretchNode node l

def submitToFreeList (entry : ResourceEntry) (free : List ResourceEntry) (mem : List Bool) :
    ResourceEntry × List ResourceEntry × List Bool :=
  if entry.totalQ = 0 then (entry, free, mem)
  else
    let (ok, mem) := qdmaCalloc mem
    if !ok then (entry, free, mem)
    else (.none, defragment (insertNode entry free), mem)

/-- A node of the free list, between the nodes before it and the nodes after it. -/
structure Place where
  before : List ResourceEntry
  node : ResourceEntry
  after : List ResourceEntry

namespace Place

def list (p : Place) : List ResourceEntry := p.before ++ p.node :: p.after

def del (p : Place) : List ResourceEntry := p.before ++ p.after

end Place

/-- The first loop of `qdma_get_resource_node`, which looks for the requested `qbase`. -/
def requestedNode (qmax : ℕ) (qbase : ℤ) (before : List ResourceEntry) :
    List ResourceEntry → Option Place
  | [] => none
  | node :: l =>
    if qbase ≥ node.qbase ∧ u32 (node.qbase + node.totalQ) ≥ u32 (qbase + qmax) then
      some ⟨before, node, l⟩
    else requestedNode qmax qbase (before ++ [node]) l

def bestFitNode (qmax : ℕ) (bestFit : Option Place) (before : List ResourceEntry) :
    List ResourceEntry → Option Place
  | [] => bestFit
  | node :: l =>
    if node.totalQ ≥ qmax ∧ bestFit.all fun b ↦ b.node.totalQ ≥ node.totalQ then
      bestFitNode qmax (some ⟨before, node, l⟩) (before ++ [node]) l
    else bestFitNode qmax bestFit (before ++ [node]) l

/-- From `fragment_free_list` on: the rest of the node that is found becomes one or two nodes of its
own. -/
def fragmentFreeList (qmax : ℕ) (qbase : ℤ) (p : Place) (mem : List Bool) :
    Option Place × List ResourceEntry × List Bool :=
  let best := p.node
  if qbase = best.qbase ∧ qmax = best.totalQ then (some p, p.list, mem)
  else if qbase = best.qbase ∧ qmax ≠ best.totalQ then
    let (ok, mem) := qdmaCalloc mem
    if !ok then (none, p.list, mem)
    else
      let lqmax := u32 (best.totalQ - qmax)
      let p := { p with
        node := { best with totalQ := u32 (best.totalQ - lqmax) }
        after := ⟨s32 (best.qbase + qmax), lqmax⟩ :: p.after }
      (some p, p.list, mem)
  else if qbase > best.qbase ∧ u32 (qbase + qmax) = u32 (best.qbase + best.totalQ) then
    let (ok, mem) := qdmaCalloc mem
    if !ok then (none, p.list, mem)
    else
      let p := { p with
        before := p.before ++ [ResourceEntry.mk best.qbase (u32 (qbase - best.qbase))]
        node := ⟨qbase, qmax⟩ }
      (some p, p.list, mem)
  else
    let (ok, mem) := qdmaCalloc mem
    if !ok then (none, p.list, mem)
    else
      let lqmax := u32 (qbase - best.qbase)
      let p := { p with
        before := p.before ++ [ResourceEntry.mk best.qbase lqmax]
        node := ⟨qbase, u32 (best.totalQ - lqmax)⟩ }
      let (ok, mem) := qdmaCalloc mem
      if !ok then (none, p.list, mem)
      else
        let p := { p with
          node := ⟨qbase, qmax⟩
          after := ⟨s32 (qbase + qmax), u32 (p.node.totalQ - qmax)⟩ :: p.after }
        (some p, p.list, mem)

/-- `qdma_get_resource_node`: the node that is found, and the free list with it in it. -/
def getResourceNode (qmax : ℕ) (qbase : ℤ) (free : List ResourceEntry) (mem : List Bool) :
    Option Place × List ResourceEntry × List Bool :=
  match if qbase ≥ 0 then requestedNode qmax qbase [] free else none with
  | some p => fragmentFreeList qmax qbase p mem
  | none =>
    match bestFitNode qmax none [] free with
    | some p => fragmentFreeList qmax p.node.qbase p mem
    | none => (none, free, mem)

def requestQResource (entry : ResourceEntry) (newQmax : ℕ) (newQbase : ℤ)
    (free : List ResourceEntry) (mem : List Bool) :
    ℤ × ResourceEntry × List ResourceEntry × List Bool :=
  let (given, free, mem) := submitToFreeList entry free mem
  if newQmax = 0 then (0, given, free, mem)
  else
    match getResourceNode newQmax newQbase free mem with
    | (some p, _, mem) => (0, p.node, p.del, mem)
    | (none, free, mem) =>
      -- the request cannot be accommodated, so the old range is asked for
      match getResourceNode entry.totalQ entry.qbase free mem with
      | (some p, _, mem) => (-errRmNoQueuesLeft, p.node, p.del, mem)
      | (none, free, mem) => (-errRmNoQueuesLeft, .none, free, mem)

/-- `enum qdma_dev_q_type`, with one member for all its other values. -/
inductive DevQType
  | h2c
  | c2h
  | cmpt
  | other
  deriving DecidableEq

structure DevEntry where
  funcId : ℕ
  activeH2c : ℕ
  activeC2h : ℕ
  activeCmpt : ℕ
  entry : ResourceEntry
  deriving DecidableEq

namespace DevEntry

def activeQcnt (d : DevEntry) : DevQType → Option ℕ
  | .h2c => some d.activeH2c
  | .c2h => some d.activeC2h
  | .cmpt => some d.activeCmpt
  | .other => none

def setActiveQcnt (d : DevEntry) (n : ℕ) : DevQType → DevEntry
  | .h2c => { d with activeH2c := n }
  | .c2h => { d with activeC2h := n }
  | .cmpt => { d with activeCmpt := n }
  | .other => d

end DevEntry

structure ResourceMaster where
  totalQ : ℕ
  qbase : ℤ
  devList : List DevEntry
  freeList : List ResourceEntry
  activeQcnt : ℕ
  deriving DecidableEq

def masterResourceCreate (qbase : ℤ) (totalQ : ℕ) : ResourceMaster :=
  ⟨totalQ, qbase, [], [⟨qbase, totalQ⟩], 0⟩

namespace ResourceMaster

def getDevEntry (m : ResourceMaster) (funcId : ℕ) : Option DevEntry :=
  m.devList.find? fun d ↦ d.funcId = funcId

def putDevEntry (m : ResourceMaster) (d : DevEntry) : ResourceMaster :=
  { m with devList := m.devList.map fun x ↦ if x.funcId = d.funcId then d else x }

def devEntryCreate (m : ResourceMaster) (funcId : ℕ) (mem : List Bool) : ℤ × ResourceMaster :=
  match m.getDevEntry funcId with
  | none =>
    if !(qdmaCalloc mem).1 then (-errNoMem, m)
    else (0, { m with devList := m.devList ++ [⟨funcId, 0, 0, 0, .none⟩] })
  | some _ => (-errRmDevExists, m)

def devEntryDestroy (m : ResourceMaster) (funcId : ℕ) (mem : List Bool) : ResourceMaster :=
  match m.getDevEntry funcId with
  | none => m
  | some d =>
    { m with
      freeList := (submitToFreeList d.entry m.freeList mem).2.1
      devList := m.devList.eraseP fun x ↦ x.funcId = funcId }

def devUpdate (m : ResourceMaster) (funcId qmax : ℕ) (qbase : ℤ) (mem : List Bool) :
    ℤ × ResourceMaster :=
  match m.getDevEntry funcId with
  | none => (-errRmDevNotExists, m)
  | some d =>
    if d.activeH2c ≠ 0 ∨ d.activeC2h ≠ 0 ∨ d.activeCmpt ≠ 0 then (-errRmQmaxConfRejected, m)
    else
      let (rv, entry, free, _) := requestQResource d.entry qmax qbase m.freeList mem
      (rv, { m.putDevEntry { d with entry := entry } with freeList := free })

/-- Whether `qdma_dev_is_queue_in_range` answers `QDMA_DEV_Q_IN_RANGE`. -/
def devIsQueueInRange (m : ResourceMaster) (funcId qidHw : ℕ) : Bool :=
  match m.getDevEntry funcId with
  | none => false
  | some d =>
    let qmax := u32 (d.entry.qbase + d.entry.totalQ)
    d.entry.totalQ ≠ 0 && decide (qidHw < qmax) && decide (s32 qidHw ≥ d.entry.qbase)

def devIncrementActiveQueue (m : ResourceMaster) (funcId : ℕ) (qType : DevQType) :
    ℤ × ResourceMaster :=
  match m.getDevEntry funcId with
  | none => (-errRmDevNotExists, m)
  | some d =>
    match d.activeQcnt qType with
    | none => (-errRmDevNotExists, m)
    | some cnt =>
      if d.entry.totalQ < u32 (cnt + 1) then (-errRmNoQueuesLeft, m)
      else (0, { m.putDevEntry (d.setActiveQcnt (u32 (cnt + 1)) qType) with
        activeQcnt := u32 (m.activeQcnt + 1) })

def devDecrementActiveQueue (m : ResourceMaster) (funcId : ℕ) (qType : DevQType) :
    ℤ × ResourceMaster :=
  match m.getDevEntry funcId with
  | none => (-errRmDevNotExists, m)
  | some d =>
    -- the count of the device goes down even when the counter does not
    let m' := { m with activeQcnt := u32 (m.activeQcnt - 1) }
    match d.activeQcnt qType with
    | none => (-errRmDevNotExists, m')
    | some cnt => (0, m'.putDevEntry (d.setActiveQcnt (if cnt ≠ 0 then cnt - 1 else cnt) qType))

end ResourceMaster

end QdmaTrafficGen.ResourceMgmt
