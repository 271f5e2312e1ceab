import QdmaTrafficGen.H2cDelivery
import QdmaTrafficGen.MempoolRuns
import QdmaTrafficGen.TxResources

open Function

namespace QdmaTrafficGen.NetSend

open QdmaNet
open StH2c (Conf Move ProcRequest SgtReqCb)

structure TxStats where
  txPackets : ℕ
  txBytes : ℕ
  txErrors : ℕ
  txDropped : ℕ

/-- The queue on which the interface sends, with its pool and what the contexts in it hold, and what
has been done with mappings, contexts and buffers. -/
structure Sys (N : ℕ) where
  h2c : StH2c.Sys
  pool : Mempool
  ctx : ℕ → Option (TxContext N)
  ops : List TxOp
  stats : TxStats

variable {N : ℕ}

/-- What `qdma_request_submit` hands to the queue for the request of a context. -/
def reqCb (ctx : TxContext N) : SgtReqCb := ⟨ctx.addr, ctx.req, 0, 0, 0⟩

namespace Sys

def init (c : Conf) (desc : ℕ → StH2c.H2cDesc) (pool : Mempool) : Sys N :=
  ⟨.init c desc, pool, fun _ ↦ none, [], ⟨0, 0, 0, 0⟩⟩

def dropped (o : TxOutcome) (skb : Skb N) (running : Bool) (h2cQhndl qid : ℕ) (txCtx : Option ℕ)
    (pool : Mempool) : Bool :=
  if !running then false
  else if h2cQhndl = queueIdxInvalid then true
  else (txEnqueueSkb o skb qid txCtx pool).rv ≠ 0

/-- `qdma_net_xmit_frame`, where the pool gives `txCtx` and is `pool` then. A request that is not
refused is in the work list. -/
def xmit (s : Sys N) (o : TxOutcome) (skb : Skb N) (running : Bool) (h2cQhndl qid : ℕ)
    (txCtx : Option ℕ) (pool : Mempool) : Sys N :=
  let r := xmitFrame o skb running h2cQhndl qid txCtx s.pool pool
  let drop := if dropped o skb running h2cQhndl qid txCtx pool then 1 else 0
  let s := { s with
    pool := r.pool
    ops := s.ops ++ r.ops
    stats := { s.stats with txDropped := s.stats.txDropped + drop } }
  match r.pending with
  | none => s
  | some ctx => { s with
      ctx := update s.ctx ctx.addr (some ctx)
      h2c := { s.h2c with q := { s.h2c.q with workList := s.h2c.q.workList ++ [reqCb ctx] } } }

def complete (s : Sys N) (r : SgtReqCb × ℤ) : Sys N :=
  let (rv, pool, ops) := txCompleteCb s.pool (s.ctx r.1.id)
  { s with
    pool := pool
    ops := s.ops ++ ops
    stats :=
      if rv ≠ 0 then s.stats
      else if r.2 ≠ 0 then { s.stats with txErrors := s.stats.txErrors + 1 }
      else { s.stats with
        txPackets := s.stats.txPackets + 1
        txBytes := s.stats.txBytes + r.1.offset } }

/-- What the driver of the queue does, or the device, up to the state `t`: the requests that are
completed meanwhile are handed to `fp_done`. -/
def driven (s : Sys N) (t : StH2c.Sys) : Sys N :=
  (t.done.drop s.h2c.done.length).foldl complete { s with h2c := t }

end Sys

/-- What the network stack sends is not empty, nor are its fragments. -/
structure Sendable (skb : Skb N) : Prop where
  len_pos : 0 < skb.len
  len_lt : skb.len < 2 ^ 32
  frags_pos : ∀ len ∈ skb.frags, 0 < len

/-- The states of the queue after the contexts `frames` have been submitted: frames are sent, each
while the interface runs or not as `calls` says, the driver works on the requests, interrupts make it
look for completions and the device moves in any order. No mapping is at the bus address 0. -/
inductive Reachable (c : Conf) (kmalloc : ℕ → Option ℕ) :
    List (TxContext N) → List Bool → Sys N → Prop
  | init {pool : Mempool} {e m : ℕ} (desc : ℕ → StH2c.H2cDesc) (he : 0 < e) (he' : e < 2 ^ 32)
      (hm : m < 2 ^ 32) (h : Mempool.create kmalloc e m = .ok pool) :
      Reachable c kmalloc [] [] (.init c desc pool)
  | xmit {frames : List (TxContext N)} {calls : List Bool} {s : Sys N} {txCtx : Option ℕ}
      {pool : Mempool} (h : Reachable c kmalloc frames calls s) (o : TxOutcome) (skb : Skb N)
      (hskb : Sendable skb) (hbus : ∀ m ∈ mapped o skb, m.1 ≠ 0) (running : Bool)
      (h2cQhndl qid : ℕ) (ha : s.pool.Allocs 1 txCtx pool) :
      Reachable c kmalloc
        (frames ++ (xmitFrame o skb running h2cQhndl qid txCtx s.pool pool).pending.toList)
        (calls ++ [running]) (s.xmit o skb running h2cQhndl qid txCtx pool)
  | move {frames : List (TxContext N)} {calls : List Bool} {s : Sys N}
      (h : Reachable c kmalloc frames calls s) (m : Move) :
      Reachable c kmalloc frames calls (s.driven (s.h2c.move c m))
  | proc {frames : List (TxContext N)} {calls : List Bool} {s : Sys N} {t : StH2c.Sys}
      {env : List (List Move)} (h : Reachable c kmalloc frames calls s)
      (hp : ProcRequest c env s.h2c t) : Reachable c kmalloc frames calls (s.driven t)
  | service {frames : List (TxContext N)} {calls : List Bool} {s : Sys N}
      (h : Reachable c kmalloc frames calls s) :
      Reachable c kmalloc frames calls (s.driven (s.h2c.cmplStatus c))

end QdmaTrafficGen.NetSend
