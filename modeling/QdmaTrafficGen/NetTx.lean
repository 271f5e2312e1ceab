import QdmaTrafficGen.NetDriver

open Function

namespace QdmaTrafficGen.QdmaNet

def queueIdxInvalid : ℕ := 0xFFFF

def dmaMappingError (addr : ℕ) : Bool := addr = 2 ^ 64 - 1

/-- A socket buffer with at most `maxSkbFrags` fragments: the bytes of its head and of each fragment. -/
structure Skb (maxSkbFrags : ℕ) where
  headlen : ℕ
  frags : List ℕ
  frags_le : frags.length ≤ maxSkbFrags

def Skb.len {n : ℕ} (skb : Skb n) : ℕ := skb.headlen + skb.frags.sum

/-- `struct qdma_sw_sg`, a pointer to an entry of the scatter-gather list being its index. -/
structure SwSg where
  next : Option ℕ
  len : ℕ
  dmaAddr : ℕ

structure Request where
  count : ℕ
  sgcnt : ℕ
  sgl : ℕ → SwSg

/-- `struct qdma_net_tx_context`, the memory of which is at `addr`. -/
structure TxContext (maxSkbFrags : ℕ) where
  addr : ℕ
  req : Request
  skb : Option (Skb maxSkbFrags)
  q : Option ℕ

inductive TxOp
  | dmaMap (addr len : ℕ)
  | dmaUnmap (addr len : ℕ)
  | mempoolAlloc (ctx : ℕ)
  | mempoolFree (ctx : ℕ)
  | kfreeSkb
  deriving DecidableEq

/-- The bus addresses that mapping the head and the fragments gives, and the result of
`qdma_request_submit`. -/
structure TxOutcome where
  dmaMapSingle : ℕ
  skbFragDmaMap : ℕ → ℕ
  requestSubmit : ℤ

def unmapEntry (e : SwSg) : List TxOp := if e.dmaAddr ≠ 0 then [.dmaUnmap e.dmaAddr e.len] else []

/-- `while (sg_idx--)`, unmapping the entries before `sg_idx`. -/
def unwind (sgl : ℕ → SwSg) : ℕ → List TxOp
  | 0 => []
  | n + 1 => unmapEntry (sgl n) ++ unwind sgl n

def unmapAll (sgl : ℕ → SwSg) (sgcnt : ℕ) : List TxOp :=
  (List.range sgcnt).flatMap fun i ↦ unmapEntry (sgl i)

variable {N : ℕ} (o : TxOutcome) (skb : Skb N) (nrFrags : ℕ)

def mapFrags : List ℕ → ℕ → ℕ → (ℕ → SwSg) → Except ℤ (ℕ × (ℕ → SwSg)) × List TxOp
  | [], _, sgIdx, sgl => (.ok (sgIdx, sgl), [])
  | fragLen :: rest, i, sgIdx, sgl =>
    let addr := o.skbFragDmaMap i
    if dmaMappingError addr then (.error (-ENOMEM), unwind sgl sgIdx)
    else
      let next := if i + 1 < nrFrags then some (sgIdx + 1) else none
      let r := mapFrags rest (i + 1) (sgIdx + 1) (update sgl sgIdx ⟨next, fragLen, addr⟩)
      (r.1, .dmaMap addr fragLen :: r.2)

/-- The head is mapped, if it has any bytes, before the fragments. -/
def mapSkb (sgl : ℕ → SwSg) : Except ℤ (ℕ × (ℕ → SwSg)) × List TxOp :=
  let nrFrags := skb.frags.length
  if skb.headlen > 0 then
    if dmaMappingError o.dmaMapSingle then (.error (-ENOMEM), [])
    else
      let next := if 0 + 1 < nrFrags + 1 then some 1 else none
      let r := mapFrags o nrFrags skb.frags 0 1 (update sgl 0 ⟨next, skb.headlen, o.dmaMapSingle⟩)
      (r.1, .dmaMap o.dmaMapSingle skb.headlen :: r.2)
  else mapFrags o nrFrags skb.frags 0 0 sgl

/-- `qdma_net_build_req_from_skb`, with the scatter-gather list of the cleared context. -/
def buildReqFromSkb : Except ℤ Request × List TxOp :=
  match mapSkb o skb fun _ ↦ ⟨none, 0, 0⟩ with
  | (.error rv, ops) => (.error rv, ops)
  | (.ok (sgIdx, sgl), ops) => (.ok ⟨skb.len, sgIdx, sgl⟩, ops)

/-- What a transmission returns, leaves in the pool and does, the request that it submits and the
context that waits for its completion. -/
structure TxResult (maxSkbFrags : ℕ) where
  rv : ℤ
  pool : Mempool
  ops : List TxOp
  submitted : Option Request
  pending : Option (TxContext maxSkbFrags)

/-- `qdma_net_tx_enqueue_skb`, where `qdma_net_mempool_alloc` returns `txCtx` and leaves `pool`. -/
def txEnqueueSkb (qid : ℕ) (txCtx : Option ℕ) (pool : Mempool) : TxResult N :=
  match txCtx with
  | none => ⟨-ENOMEM, pool, [], none, none⟩
  | some ctx =>
    match buildReqFromSkb o skb with
    | (.error rv, ops) =>
      ⟨rv, pool.free (some ctx), [.mempoolAlloc ctx] ++ ops ++ [.mempoolFree ctx], none, none⟩
    | (.ok req, ops) =>
      if o.requestSubmit < 0 then
        ⟨o.requestSubmit, pool.free (some ctx),
          [.mempoolAlloc ctx] ++ ops ++ unmapAll req.sgl req.sgcnt ++ [.mempoolFree ctx], some req,
          none⟩
      else
        ⟨0, pool, [.mempoolAlloc ctx] ++ ops, some req, some ⟨ctx, req, some skb, some qid⟩⟩

def xmitFrame (running : Bool) (h2cQhndl qid : ℕ) (txCtx : Option ℕ) (pool pool' : Mempool) :
    TxResult N :=
  if !running then ⟨0, pool, [.kfreeSkb], none, none⟩
  else if h2cQhndl = queueIdxInvalid then ⟨0, pool, [.kfreeSkb], none, none⟩
  else
    let r := txEnqueueSkb o skb qid txCtx pool'
    if r.rv ≠ 0 then { r with rv := 0, ops := r.ops ++ [.kfreeSkb] } else r

/-- `qdma_net_tx_complete_cb`, without a context if the request has none. -/
def txCompleteCb (pool : Mempool) : Option (TxContext N) → ℤ × Mempool × List TxOp
  | none => (-EINVAL, pool, [])
  | some ctx =>
    let free := if ctx.skb.isSome then [.kfreeSkb] else []
    match ctx.q with
    | none => (-EINVAL, pool, free)
    | some _ => (0, pool.free (some ctx.addr),
        unmapAll ctx.req.sgl ctx.req.sgcnt ++ free ++ [.mempoolFree ctx.addr])

end QdmaTrafficGen.QdmaNet
