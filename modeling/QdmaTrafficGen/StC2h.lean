import Mathlib.Algebra.Group.Nat.Defs
import Mathlib.Logic.Function.Basic
import QdmaTrafficGen.Sequential.Loop

open Function Sequential

namespace QdmaTrafficGen.StC2h

/-- `fls`, which counts the bits of a number up to its highest one. -/
def fls (n : ℕ) : ℕ := if n = 0 then 0 else n.log2 + 1

def getNextPowof2 (value : ℕ) : ℕ :=
  let numBits := fls value - 1
  let mask := (1 <<< numBits) - 1
  ((value + mask) >>> numBits) <<< numBits

def ringIdxDelta (new old rngsz : ℕ) : ℕ := if new ≥ old then new - old else new + (rngsz - old)

def ringIdxIncr (idx cnt rngsz : ℕ) : ℕ :=
  let idx := idx + cnt
  if idx ≥ rngsz then idx - rngsz else idx

def ringIdxDecr (idx cnt rngsz : ℕ) : ℕ := if idx ≥ cnt then idx - cnt else rngsz - (cnt - idx)

def pageShift : ℕ := 12

/-- What the queue is configured with; `polled` in `POLL_MODE`. -/
structure Conf where
  rngsz : ℕ
  rngszCmpt : ℕ
  c2hBufsz : ℕ
  polled : Bool

namespace Conf

variable (c : Conf)

def descBufSize : ℕ := getNextPowof2 c.c2hBufsz

def descPgShift : ℕ := fls c.descBufSize - 1

def descPgOrder : ℕ := if c.descPgShift < pageShift then 0 else c.descPgShift - pageShift

def maxPgOffset : ℕ := (1 <<< pageShift) <<< c.descPgOrder

def numBufsPerPg : ℕ := c.maxPgOffset >>> c.descPgShift

def numPages : ℕ :=
  let numPages := c.rngsz / c.numBufsPerPg + if c.rngsz % c.numBufsPerPg = 0 then 0 else 1
  let numPages := getNextPowof2 numPages
  if numPages < c.rngsz then numPages <<< 1 else numPages

def numPgsMask : ℕ := c.numPages - 1

end Conf

/-- `struct qdma_sw_pg_sg`: a page, known by the number of its allocation, and whether it is mapped. -/
structure PgSg where
  pgBase : ℕ
  mapped : Bool
  pgOffset : ℕ

/-- An entry of `struct qdma_sw_sg` of the free list with its descriptor, which holds `dmaAddr` too:
the page and the offset in it that the device writes to. -/
structure SwSg where
  pg : Option ℕ
  offset : ℕ
  dmaAddr : Option (ℕ × ℕ)
  len : ℕ

/-- `struct qdma_flq`, with the number of pages allocated and the references to each of them. -/
structure Flq where
  allocIdx : ℕ
  recycleIdx : ℕ
  pgSdesc : ℕ → PgSg
  sdesc : ℕ → SwSg
  allocated : ℕ
  refs : ℕ → ℕ

variable (c : Conf)

def flqFreeOne (f : Flq) (idx : ℕ) : Flq :=
  { f with sdesc := update f.sdesc idx { f.sdesc idx with pg := none, offset := 0, dmaAddr := none } }

/-- `flq_fill_one`, `none` when the page is full. -/
def flqFillOne (f : Flq) (idx : ℕ) : Option Flq :=
  let pgIdx := f.allocIdx &&& c.numPgsMask
  let pg := f.pgSdesc pgIdx
  if pg.pgOffset + c.descBufSize > c.maxPgOffset then none
  else
    let pgOffset := pg.pgOffset + c.descBufSize
    some { f with
      sdesc := update f.sdesc idx ⟨some pg.pgBase, pg.pgOffset,
        if pg.mapped then some (pg.pgBase, pg.pgOffset) else none, c.c2hBufsz⟩
      refs := update f.refs pg.pgBase (f.refs pg.pgBase + 1)
      pgSdesc := update f.pgSdesc pgIdx { pg with pgOffset := pgOffset }
      allocIdx := if pgOffset + c.descBufSize > c.maxPgOffset then f.allocIdx + 1 else f.allocIdx }

def flqFillPageOne (f : Flq) (pgIdx : ℕ) : Flq :=
  { f with
    pgSdesc := update f.pgSdesc pgIdx ⟨f.allocated, true, 0⟩
    refs := update f.refs f.allocated 1
    allocated := f.allocated + 1 }

/-- `descq_flq_alloc_resource`, when all pages can be had. -/
def descqFlqAllocResource : Option Flq :=
  let f : Flq := ⟨0, 0, fun _ ↦ ⟨0, false, 0⟩, fun _ ↦ ⟨none, 0, none, 0⟩, 0, fun _ ↦ 0⟩
  (List.range c.rngsz).foldlM (flqFillOne c) ((List.range c.numPages).foldl flqFillPageOne f)

/-- The loop of `flq_refill_pages` that gives `count` buffers back to their pages, with `i` and
`n_recycle_index`. -/
def returnBody (count : ℕ) : ℕ × ℕ × Flq → Flq ⊕ ℕ × ℕ × Flq
  | (i, nRecycleIndex, f) =>
    if i < count then
      let pgIdx := nRecycleIndex &&& c.numPgsMask
      let pg := f.pgSdesc pgIdx
      let freeBufsInPg := min (pg.pgOffset >>> c.descPgShift) (count - i)
      let pgOffset := pg.pgOffset - freeBufsInPg * c.descBufSize
      .inr (i + freeBufsInPg, if pgOffset = 0 then nRecycleIndex + 1 else nRecycleIndex,
        { f with pgSdesc := update f.pgSdesc pgIdx { pg with pgOffset := pgOffset } })
    else .inl f

/-- The loop of `flq_refill_pages` that replaces pages without buffers; `mem` tells which of the
coming allocations succeed, all that it does not name do. -/
def recycleBody : List Bool × Flq → Flq ⊕ List Bool × Flq
  | (mem, f) =>
    let pgIdx := f.recycleIdx &&& c.numPgsMask
    let pg := f.pgSdesc pgIdx
    if pg.pgOffset ≠ 0 ∨ f.recycleIdx = f.allocIdx then .inl f
    else
      let f := { f with
        pgSdesc := update f.pgSdesc pgIdx { pg with mapped := false }
        refs := update f.refs pg.pgBase (f.refs pg.pgBase - 1) }
      if mem.headD true then
        .inr (mem.tail, { flqFillPageOne f pgIdx with recycleIdx := f.recycleIdx + 1 })
      else .inl f

/-- `flq_refill_pages` for buffers that are not recycled. -/
def FlqRefillPages (count : ℕ) (mem : List Bool) (f f' : Flq) : Prop :=
  ∃ g, Loop.Ends (returnBody c count) (0, f.recycleIdx, f) g ∧ Loop.Ends (recycleBody c) (mem, g) f'

/-- The loop of `qdma_flq_refill` over `count` entries from `idx` on, and how many it fills. -/
def flqFill : ℕ → ℕ → Flq → ℕ × Flq
  | 0, _, f => (0, f)
  | count + 1, idx, f =>
    let idx := if idx = c.rngsz then 0 else idx
    let f := flqFreeOne f idx
    match flqFillOne c f idx with
    | none => (0, f)
    | some f =>
      let (i, f) := flqFill count (idx + 1) f
      (i + 1, f)

def FlqRefill (idx count : ℕ) (mem : List Bool) (f : Flq) (r : ℕ × Flq) : Prop :=
  ∃ g, FlqRefillPages c count mem f g ∧ flqFill c count idx g = r

/-- `while (l_len >= c2h_bufsz)` -/
def takeBufs (c2hBufsz : ℕ) : ℕ → ℕ → ℕ → ℕ × ℕ
  | 0, flNr, len => (flNr, len)
  | k + 1, flNr, len =>
    if len ≥ c2hBufsz then takeBufs c2hBufsz k (flNr + 1) (len - c2hBufsz) else (flNr, len)

/-- `get_fl_nr`: how many buffers a packet takes, and how many bytes lie in the last one. -/
def getFlNr (len c2hBufsz pgShift pgMask : ℕ) : ℕ × ℕ :=
  if len &&& (len - 1) = 0 then
    let flNr := if len ≠ 0 then (len + pgMask) >>> pgShift else 1
    let lLen := len &&& pgMask
    (flNr, if lLen = 0 then c2hBufsz else lLen)
  else if len ≤ c2hBufsz then (1, len)
  else
    let (flNr, lLen) := takeBufs c2hBufsz len 0 len
    if lLen ≠ 0 then (flNr + 1, lLen) else (flNr, c2hBufsz)

structure CmptInfo where
  format : Bool
  color : Bool
  err : Bool
  descUsed : Bool
  len : ℕ

def parseCmplEntry (cmpt : ℕ) : CmptInfo :=
  let format := cmpt.testBit 0
  let descUsed := cmpt.testBit 3
  ⟨format, cmpt.testBit 1, cmpt.testBit 2, descUsed,
    if !format && descUsed then (cmpt >>> 4) % 2 ^ 16 else 0⟩

/-- `descq_cmpl_err_check` for a queue without user defined data. -/
def CmptInfo.bad (cmpl : CmptInfo) : Bool := cmpl.format || !cmpl.descUsed || cmpl.err

abbrev Mem := ℕ → ℕ → ℕ

def Mem.read (m : Mem) (pg offset n : ℕ) : List ℕ := (List.range n).map fun i ↦ m pg (offset + i)

/-- The loop of `qdma_net_rx_packet_cb` over the entries of a packet. -/
def copyPacket (m : Mem) (sdesc : ℕ → SwSg) (pktLen : ℕ) : ℕ → ℕ → ℕ → List ℕ
  | 0, _, _ => []
  | sgcnt + 1, sg, copied =>
    if copied < pktLen then
      let copyLen := min (sdesc sg).len (pktLen - copied)
      let data := match (sdesc sg).pg with
        | some pg => m.read pg (sdesc sg).offset copyLen
        | none => []
      data ++ copyPacket m sdesc pktLen sgcnt (if sg + 1 = c.rngsz then 0 else sg + 1)
        (copied + copyLen)
    else []

/-- The queue, as far as a transfer from the card reads and writes it. -/
structure Descq where
  avail : ℕ
  pidx : ℕ
  cidxCmpt : ℕ
  color : Bool
  err : Bool
  pidxInfo : ℕ
  wrbCidx : ℕ
  flq : Flq
  pidxPend : ℕ

/-- The device: the next descriptor that it uses, the index up to which it may, where it writes the
next completion, of which color, up to where it may, and what it has last written to the status. -/
structure Device where
  cidx : ℕ
  pidx : ℕ
  cmptPidx : ℕ
  color : Bool
  cmptCidx : ℕ
  status : ℕ

/-- `descq_process_completion_st_c2h` under way: how many entries it may still process and has
processed, and its `pidx` and `pidx_pend`. -/
structure Serving where
  left : ℕ
  procCnt : ℕ
  pidx : ℕ
  pidxPend : ℕ

/-- Where `qdma_net_napi_poll` is: not called, in `qdma_queue_service`, or behind it. -/
inductive Phase
  | idle
  | serving (w : Serving)
  | served

structure RxStats where
  rxPackets : ℕ
  rxBytes : ℕ
  rxDropped : ℕ

/-- The queue, the device, the completion ring, the memory, the packets that the device has received
and what has become of those that the driver has processed: `none` if there was no memory for one. -/
structure Sys where
  q : Descq
  dev : Device
  cmpt : ℕ → ℕ
  mem : Mem
  received : List (List ℕ)
  up : List (Option (List ℕ))
  stats : RxStats
  phase : Phase

namespace Sys

def init (f : Flq) (cmpt : ℕ → ℕ) (mem : Mem) : Sys where
  q := ⟨c.rngsz - 1, 0, 0, true, false, c.rngsz - 1, 0, f, 0⟩
  dev := ⟨0, c.rngsz - 1, 0, true, 0, 0⟩
  cmpt := cmpt
  mem := mem
  received := []
  up := []
  stats := ⟨0, 0, 0⟩
  phase := .idle

/-- The head of `descq_process_completion_st_c2h`. -/
def beginService (s : Sys) (budget : ℕ) : Sys :=
  if s.q.err then { s with phase := .served }
  else
    let pend := ringIdxDelta s.dev.status s.q.cidxCmpt c.rngszCmpt
    if pend = 0 then
      let cmptCidx := if c.polled then s.dev.cmptCidx else s.q.wrbCidx
      { s with dev := { s.dev with cmptCidx := cmptCidx }, phase := .served }
    else
      let budget := if budget = 0 ∨ budget > pend then pend else budget
      { s with phase := .serving ⟨budget, 0, s.q.pidx, s.q.pidxPend⟩ }

/-- `rcv_pkt` with `qdma_net_rx_packet_cb`, which gets memory for the packet if `ok`, and the next
`pidx`; `none` if it returns an error. -/
def rcvPkt (s : Sys) (pidx len : ℕ) (ok : Bool) : Sys × Option ℕ :=
  let (flNr, lLen) := getFlNr len c.c2hBufsz c.descPgShift ((1 <<< c.descPgShift) - 1)
  let last := ringIdxIncr pidx (flNr - 1) c.rngsz
  let next := ringIdxIncr last 1 c.rngsz
  let f := s.q.flq
  let f := { f with sdesc := update f.sdesc last { f.sdesc last with len := if len = 0 then 0 else lLen } }
  if s.q.avail < flNr then ({ s with q := { s.q with flq := f } }, none)
  else
    let pkt := if ok then some (copyPacket c s.mem f.sdesc len flNr pidx 0) else none
    let stats := if ok then
      { s.stats with rxPackets := s.stats.rxPackets + 1, rxBytes := s.stats.rxBytes + len }
      else { s.stats with rxDropped := s.stats.rxDropped + 1 }
    ({ s with
      q := { s.q with flq := f, avail := s.q.avail - flNr, pidxPend := next }
      up := s.up ++ [pkt]
      stats := stats }, some next)

def cmptNext (q : Descq) : Descq :=
  if q.cidxCmpt + 1 = c.rngszCmpt then { q with cidxCmpt := 0, color := !q.color }
  else { q with cidxCmpt := q.cidxCmpt + 1 }

def processEntry (s : Sys) (w : Serving) (ok : Bool) : Sys :=
  let cmpl := parseCmplEntry (s.cmpt s.q.cidxCmpt)
  if cmpl.bad then { s with q := { s.q with err := true }, phase := .served }
  else if cmpl.color ≠ s.q.color then { s with phase := .serving { w with left := 0 } }
  else
    match s.rcvPkt c w.pidx cmpl.len ok with
    | (s, none) => { s with phase := .serving { w with left := 0 } }
    | (s, some pidx) => { s with
        q := cmptNext c s.q
        phase := .serving { w with left := w.left - 1, procCnt := w.procCnt + 1, pidx := pidx } }

/-- The rest of `descq_process_completion_st_c2h`. -/
def EndService (s : Sys) (w : Serving) (mem : List Bool) (t : Sys) : Prop :=
  if w.procCnt = 0 then t = { s with phase := .served }
  else
    let q := { s.q with pidx := w.pidx, wrbCidx := s.q.cidxCmpt }
    if q.pidxPend = w.pidxPend then t = { s with q := q, phase := .served }
    else
      ∃ r, FlqRefill c w.pidxPend (ringIdxDelta q.pidxPend w.pidxPend c.rngsz) mem q.flq r ∧
        t = { s with
          q := { q with
            flq := r.2
            avail := q.avail + r.1
            pidxInfo := ringIdxDecr q.pidxPend 1 c.rngsz }
          phase := .served }

def updatePointers (s : Sys) : Sys :=
  { s with
    dev := { s.dev with cmptCidx := s.q.wrbCidx, pidx := s.q.pidxInfo }
    phase := .idle }

end Sys

def bufsFor (bufsz len : ℕ) : ℕ := max 1 ((len + bufsz - 1) / bufsz)

def bufChunk (bufsz : ℕ) (pkt : List ℕ) (i : ℕ) : List ℕ := (pkt.drop (i * bufsz)).take bufsz

def Mem.write (m : Mem) (addr : Option (ℕ × ℕ)) (data : List ℕ) : Mem :=
  match addr with
  | none => m
  | some (pg, offset) => update m pg fun x ↦
      if offset ≤ x ∧ x < offset + data.length then data.getD (x - offset) 0 else m pg x

def dmaPacket (m : Mem) (sdesc : ℕ → SwSg) (idx : ℕ) (pkt : List ℕ) : Mem :=
  (List.range (bufsFor c.c2hBufsz pkt.length)).foldl
    (fun m i ↦ m.write (sdesc ((idx + i) % c.rngsz)).dmaAddr (bufChunk c.c2hBufsz pkt i)) m

namespace Sys

/-- The device has buffers and an entry of the completion ring for a packet, and writes the
completion `w`. -/
structure Accepts (s : Sys) (pkt : List ℕ) (w : ℕ) : Prop where
  bufs : bufsFor c.c2hBufsz pkt.length ≤ ringIdxDelta s.dev.pidx s.dev.cidx c.rngsz
  room : ringIdxIncr s.dev.cmptPidx 1 c.rngszCmpt ≠ s.dev.cmptCidx
  len_lt : pkt.length < 2 ^ 16
  entry : parseCmplEntry w = ⟨false, s.dev.color, false, true, pkt.length⟩

def receive (s : Sys) (pkt : List ℕ) (w : ℕ) : Sys :=
  { s with
    dev := { s.dev with
      cidx := (s.dev.cidx + bufsFor c.c2hBufsz pkt.length) % c.rngsz
      cmptPidx := if s.dev.cmptPidx + 1 = c.rngszCmpt then 0 else s.dev.cmptPidx + 1
      color := if s.dev.cmptPidx + 1 = c.rngszCmpt then !s.dev.color else s.dev.color }
    cmpt := update s.cmpt s.dev.cmptPidx w
    mem := dmaPacket c s.mem s.q.flq.sdesc s.dev.cidx pkt
    received := s.received ++ [pkt] }

def writeStatus (s : Sys) : Sys := { s with dev := { s.dev with status := s.dev.cmptPidx } }

end Sys

/-- What the device or the driver does next; the driver gets memory for a packet if `ok`, and `mem`
tells for which pages it does. -/
inductive Event
  | receive (pkt : List ℕ) (w : ℕ)
  | writeStatus
  | beginService (budget : ℕ)
  | processEntry (ok : Bool)
  | endService (mem : List Bool)
  | updatePointers

def Step (s : Sys) : Event → Sys → Prop
  | .receive pkt w, t => s.Accepts c pkt w ∧ t = s.receive c pkt w
  | .writeStatus, t => t = s.writeStatus
  | .beginService budget, t => s.phase = .idle ∧ t = s.beginService c budget
  | .processEntry ok, t => ∃ w, s.phase = .serving w ∧ 0 < w.left ∧ t = s.processEntry c w ok
  | .endService mem, t => ∃ w, s.phase = .serving w ∧ w.left = 0 ∧ s.EndService c w mem t
  | .updatePointers, t => s.phase = .served ∧ t = s.updatePointers

end QdmaTrafficGen.StC2h
