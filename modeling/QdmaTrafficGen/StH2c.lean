import QdmaTrafficGen.NetTx
import QdmaTrafficGen.Sequential.Loop

open Function Sequential

namespace QdmaTrafficGen.StH2c

open QdmaNet (Request SwSg EINVAL)

def pageSize : ℕ := 4096

structure H2cDesc where
  srcAddr : ℕ
  len : ℕ
  deriving DecidableEq

/-- A request with its `struct qdma_sgt_req_cb`; `id` stands for its address. -/
structure SgtReqCb where
  id : ℕ
  req : Request
  epAddr : ℕ
  offset : ℕ
  descNr : ℕ

def SgtReqCb.pktsz (cb : SgtReqCb) : ℕ := if cb.epAddr ≠ 0 then min cb.epAddr pageSize else pageSize

def findOffsetFrom (req : Request) (offset : ℕ) : ℕ → ℕ → ℕ → Option (ℕ × ℕ)
  | 0, _, _ => none
  | k + 1, i, len =>
    let len := len + (req.sgl i).len
    if len = offset then if i + 1 < req.sgcnt then some (i + 1, 0) else none
    else if len > offset then some (i, (req.sgl i).len - (len - offset))
    else findOffsetFrom req offset k (i + 1) len

/-- `qdma_sgl_find_offset`: the entry of the list in which the transfer goes on, and where in it. -/
def sglFindOffset (cb : SgtReqCb) : Option (ℕ × ℕ) :=
  if cb.req.count = 0 then some (0, 0)
  else findOffsetFrom cb.req cb.offset cb.req.sgcnt 0 0

/-- The ring while descriptors are set up in it, with what is counted meanwhile. -/
structure Fill where
  desc : ℕ → H2cDesc
  pidx : ℕ
  descCnt : ℕ
  dataCnt : ℕ
  sgOffset : ℕ

def Fill.put (rngsz : ℕ) (s : Fill) (d : H2cDesc) : Fill where
  desc := update s.desc s.pidx d
  pidx := if s.pidx + 1 = rngsz then 0 else s.pidx + 1
  descCnt := s.descCnt + 1
  dataCnt := s.dataCnt + d.len
  sgOffset := s.sgOffset + d.len

/-- The descriptors for the `tlen` bytes that are left of an entry, at most `room` of them, and how
many bytes are left then. -/
def fillSg (rngsz pktsz descMax : ℕ) : ℕ → ℕ → ℕ → Fill → ℕ × Fill
  | 0, _, tlen, s => (tlen, s)
  | room + 1, srcAddr, tlen, s =>
    let len := min tlen pktsz
    let s := s.put rngsz ⟨srcAddr, len⟩
    if s.descCnt = descMax ∨ tlen - len = 0 then (tlen - len, s)
    else fillSg rngsz pktsz descMax room (srcAddr + len) (tlen - len) s

def fillSgl (rngsz pktsz descMax : ℕ) (sgl : ℕ → SwSg) : ℕ → ℕ → Fill → Fill
  | 0, _, s => s
  | k + 1, i, s =>
    if s.descCnt < descMax then
      let (tlen, t) := fillSg rngsz pktsz descMax (descMax - s.descCnt) ((sgl i).dmaAddr + s.sgOffset)
        ((sgl i).len - s.sgOffset) { s with sgOffset := 0 }
      fillSgl rngsz pktsz descMax sgl k (i + 1) (if tlen = 0 then { t with sgOffset := 0 } else t)
    else s

/-- The queue, as far as a transfer from the host reads and writes it. -/
structure Descq where
  desc : ℕ → H2cDesc
  pidx : ℕ
  cidx : ℕ
  avail : ℕ
  credit : ℕ
  pidxInfo : ℕ
  workList : List SgtReqCb
  pendList : List SgtReqCb

/-- `qdma_update_request` for the first request of the work list. -/
def Descq.updateRequest (q : Descq) (numDesc dataCnt : ℕ) : Descq :=
  match q.workList with
  | [] => q
  | cb :: work =>
    let cb := { cb with descNr := cb.descNr + numDesc, offset := cb.offset + dataCnt }
    if cb.offset ≥ cb.req.count then { q with workList := work, pendList := q.pendList ++ [cb] }
    else { q with workList := cb :: work }

/-- The error that `qdma_sgt_req_done` hands to `fp_done`. -/
def reqDone (cb : SgtReqCb) : SgtReqCb × ℤ := (cb, if cb.offset ≠ cb.req.count then -EINVAL else 0)

/-- The requests that `cr` credits complete, those that stay, and the credits that are left. -/
def completeRequests : ℕ → List SgtReqCb → List (SgtReqCb × ℤ) × List SgtReqCb × ℕ
  | cr, [] => ([], [], cr)
  | cr, cb :: pend =>
    if cr ≥ cb.descNr then
      if cr - cb.descNr = 0 then ([reqDone cb], pend, 0)
      else
        let (done, pend, cr) := completeRequests (cr - cb.descNr) pend
        (reqDone cb :: done, pend, cr)
    else ([], { cb with descNr := cb.descNr - cr } :: pend, 0)

/-- The device: the next descriptor that it fetches, the index up to which it may, what it has last
written to `desc_cmpl_status`, and the descriptors whose bytes it has sent. -/
structure Device where
  cidx : ℕ
  pidx : ℕ
  status : ℕ
  wire : List H2cDesc

/-- The queue, its device and, oldest first, the calls of `fp_done`. -/
structure Sys where
  q : Descq
  dev : Device
  done : List (SgtReqCb × ℤ)

inductive Move
  | fetch
  | writeBack

/-- `polled` in the modes in which the driver looks for completions itself. -/
structure Conf where
  rngsz : ℕ
  polled : Bool

variable (c : Conf)

namespace Sys

def init (desc : ℕ → H2cDesc) : Sys :=
  ⟨⟨desc, 0, 0, c.rngsz - 1, 0, 0, [], []⟩, ⟨0, 0, 0, []⟩, []⟩

def move (s : Sys) : Move → Sys
  | .fetch =>
    if s.dev.cidx = s.dev.pidx then s
    else { s with dev := { s.dev with
      cidx := if s.dev.cidx + 1 = c.rngsz then 0 else s.dev.cidx + 1
      wire := s.dev.wire ++ [s.q.desc s.dev.cidx] } }
  | .writeBack => { s with dev := { s.dev with status := s.dev.cidx } }

def moves (s : Sys) (ms : List Move) : Sys := ms.foldl (move c) s

def cmplStatus (s : Sys) : Sys :=
  let q := s.q
  let cidxHw := s.dev.status
  if q.pidx = q.cidx then s
  else if cidxHw = q.cidx then s
  else
    let cr := if cidxHw < q.cidx then c.rngsz - q.cidx + cidxHw else cidxHw - q.cidx
    let (done, pend, credit) := completeRequests (q.credit + cr) q.pendList
    { q := { q with cidx := cidxHw, avail := q.avail + cr, credit := credit, pendList := pend }
      dev := { s.dev with pidx := q.pidxInfo }
      done := s.done ++ done }

end Sys

/-- A call of `descq_proc_st_h2c_request` under way: `env` has the moves of the device before each
time that the driver looks for completions or tells it the index. -/
structure Proc where
  sys : Sys
  env : List (List Move)
  descWritten : ℕ

namespace Proc

/-- What the device does until the driver looks at it again. -/
def wait (p : Proc) : Proc :=
  match p.env with
  | [] => p
  | ms :: env => { p with sys := p.sys.moves c ms, env := env }

def poll (p : Proc) : Proc :=
  let p := p.wait c
  if c.polled then { p with sys := p.sys.cmplStatus c } else p

/-- One iteration over the work list; the call `break`s out of the loop or goes on. -/
def body (p : Proc) : Proc ⊕ Proc :=
  match p.sys.q.workList with
  | [] => .inl p
  | cb :: _ =>
    let p := if p.sys.q.avail = 0 then p.poll c else p
    let q := p.sys.q
    if q.avail = 0 then .inl p
    else
      match sglFindOffset cb with
      | none => .inr { p with sys := { p.sys with q := q.updateRequest 0 0 } }
      | some (i, sgOffset) =>
        let f := fillSgl c.rngsz cb.pktsz q.avail cb.req.sgl (cb.req.sgcnt - i) i
          ⟨q.desc, q.pidx, 0, 0, sgOffset⟩
        let q := { q with desc := f.desc }.updateRequest f.descCnt f.dataCnt
        let p := { p with sys := { p.sys with q := { q with
          pidx := f.pidx, avail := q.avail - f.descCnt } } }
        if f.descCnt = 0 then .inl p else .inr { p with descWritten := p.descWritten + f.descCnt }

/-- After the loop the device is told how far it may go. -/
def finish (p : Proc) : Sys :=
  if p.descWritten ≠ 0 then
    let p := p.wait c
    ({ p with sys := { p.sys with
      q := { p.sys.q with pidxInfo := p.sys.q.pidx }
      dev := { p.sys.dev with pidx := p.sys.q.pidx } } }.poll c).sys
  else p.sys

end Proc

/-- `descq_proc_st_h2c_request` ends in `t`. -/
def ProcRequest (env : List (List Move)) (s t : Sys) : Prop :=
  ∃ p, Loop.Ends (Proc.body c) (Proc.poll c ⟨s, env, 0⟩) p ∧ p.finish c = t

/-- The entries of a request make up the bytes to be sent, and no entry is empty unless there are none
to be sent. -/
structure SgtReqCb.WellFormed (cb : SgtReqCb) : Prop where
  sgcnt_pos : 0 < cb.req.sgcnt
  pos : 0 < cb.req.count → ∀ i < cb.req.sgcnt, 0 < (cb.req.sgl i).len
  count_eq : cb.req.count = ((List.range cb.req.sgcnt).map fun i ↦ (cb.req.sgl i).len).sum
  count_lt : cb.req.count < 2 ^ 32
  fresh : cb.offset = 0 ∧ cb.descNr = 0

/-- The states of the queue after the requests `subs` have been submitted: requests come in, the
driver works on them, interrupts make it look for completions and the device moves in any order. -/
inductive Reachable : List SgtReqCb → Sys → Prop
  | init (desc : ℕ → H2cDesc) : Reachable [] (.init c desc)
  | submit {subs : List SgtReqCb} {s : Sys} {cb : SgtReqCb} (h : Reachable subs s)
      (hcb : cb.WellFormed) : Reachable (subs ++ [cb])
        { s with q := { s.q with workList := s.q.workList ++ [cb] } }
  | move {subs : List SgtReqCb} {s : Sys} (h : Reachable subs s) (m : Move) :
      Reachable subs (s.move c m)
  | proc {subs : List SgtReqCb} {s t : Sys} {env : List (List Move)} (h : Reachable subs s)
      (hp : ProcRequest c env s t) : Reachable subs t
  | service {subs : List SgtReqCb} {s : Sys} (h : Reachable subs s) :
      Reachable subs (s.cmplStatus c)

end QdmaTrafficGen.StH2c
