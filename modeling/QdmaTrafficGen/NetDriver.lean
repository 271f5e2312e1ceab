import QdmaTrafficGen.Mempool
import QdmaTrafficGen.Sequential.SetUp
import QdmaTrafficGen.Sequential.Trace

open Function Sequential

namespace QdmaTrafficGen.QdmaNet

def EINVAL : ℤ := 22

def txCtxPoolSize : ℕ := 2048

inductive QType
  | h2c
  | c2h
  deriving DecidableEq

abbrev QueueId := QType × ℕ

inductive Action
  | napiEnable (q : ℕ)
  | napiDisable (q : ℕ)
  | queueAdd (k : QueueId)
  | queueStop (k : QueueId)
  | queueDelete (k : QueueId)

structure Setting where
  numTxq : ℕ
  numRxq : ℕ
  qmax : ℕ
  sizeofTxContext : ℕ
  devHndl : ℕ

structure Outcome where
  kmalloc : ℕ → ℕ → Option ℕ
  queueAdd : QueueId → ℤ
  queueGet : QueueId → Bool
  queueConfig : QueueId → ℤ
  queueStart : QueueId → ℤ

/-- The state of the driver, the queues that the Xilinx driver has registered and, oldest first, the
calls made so far. -/
structure Dev where
  qhndl : QueueId → ℕ
  txCtxPool : ℕ → Option Mempool
  watchdogTask : Bool
  running : Bool
  registered : QueueId → Bool
  log : List Action

namespace Dev

def init : Dev := ⟨fun _ ↦ 0, fun _ ↦ none, false, false, fun _ ↦ false, []⟩

def napiEnable (q : ℕ) (s : Dev) : Dev := { s with log := s.log ++ [.napiEnable q] }

def napiDisable (q : ℕ) (s : Dev) : Dev := { s with log := s.log ++ [.napiDisable q] }

def mempoolDestroy (q : ℕ) (s : Dev) : Dev := { s with txCtxPool := update s.txCtxPool q none }

def xpdevQueueDelete (k : QueueId) (s : Dev) : Dev :=
  { s with registered := update s.registered k false, log := s.log ++ [.queueDelete k] }

end Dev

/-- The handle that `qdma_queue_add` gives a queue. -/
def Setting.qhndl (c : Setting) : QueueId → ℕ
  | (.h2c, qidx) => qidx
  | (.c2h, qidx) => qidx + c.qmax

def Setting.queueOf (c : Setting) (qhndl : ℕ) : QueueId :=
  if qhndl < c.qmax then (.h2c, qhndl) else (.c2h, qhndl - c.qmax)

variable (c : Setting) (o : Outcome)

/-- `xpdev_queue_add`, which refuses an index that the device does not have. -/
def xpdevQueueAdd (k : QueueId) (s : Dev) : ℤ × Dev :=
  if k.2 ≥ c.qmax then (-EINVAL, s)
  else if o.queueAdd k < 0 then (o.queueAdd k, s)
  else (o.queueAdd k,
    { s with registered := update s.registered k true, log := s.log ++ [.queueAdd k] })

def qdmaQueueStop (qhndl : ℕ) (s : Dev) : Dev :=
  { s with log := s.log ++ [.queueStop (c.queueOf qhndl)] }

/-- The steps that set up a queue of either direction, each error being followed by `destroy`. -/
def setupQueue (k : QueueId) (destroy : Dev → Dev) (s : Dev) : ℤ × Dev :=
  let r := xpdevQueueAdd c o k s
  if r.1 < 0 then (r.1, destroy r.2)
  -- the queue has been added, but is not deleted here
  else if !o.queueGet k then (-EINVAL, destroy r.2)
  else
    let s := { r.2 with qhndl := update r.2.qhndl k (c.qhndl k) }
    if o.queueConfig k < 0 then (o.queueConfig k, destroy (s.xpdevQueueDelete k))
    else if o.queueStart k < 0 then (o.queueStart k, destroy (s.xpdevQueueDelete k))
    else (0, s)

def setupTxResources (q : ℕ) (s : Dev) : ℤ × Dev :=
  match Mempool.create (o.kmalloc q) c.sizeofTxContext txCtxPoolSize with
  | .error rv => (rv, s.mempoolDestroy q)
  | .ok pool =>
    setupQueue c o (.h2c, q) (Dev.mempoolDestroy q)
      { s with txCtxPool := update s.txCtxPool q (some pool) }

def setupRxResources (q : ℕ) (s : Dev) : ℤ × Dev := setupQueue c o (.c2h, q) id s

/-- A queue whose handle is not 0 is stopped and deleted. -/
def freeQueue (k : QueueId) (s : Dev) : Dev :=
  if s.qhndl k ≠ 0 then
    let s := (qdmaQueueStop c (s.qhndl k) s).xpdevQueueDelete k
    { s with qhndl := update s.qhndl k 0 }
  else s

def freeTxResources (q : ℕ) (s : Dev) : Dev := (freeQueue c (.h2c, q) s).mempoolDestroy q

def freeRxResources (q : ℕ) (s : Dev) : Dev := freeQueue c (.c2h, q) s

def setupAllTxResources : Dev → ℤ × Dev :=
  setUpAll (setupTxResources c o) (freeTxResources c) c.numTxq

def setupAllRxResources : Dev → ℤ × Dev :=
  setUpAll (setupRxResources c o) (freeRxResources c) c.numRxq

def freeAllTxResources : Dev → Dev := each (freeTxResources c) c.numTxq

def freeAllRxResources : Dev → Dev := each (freeRxResources c) c.numRxq

def napiEnableAll : Dev → Dev := each Dev.napiEnable c.numRxq

def napiDisableAll : Dev → Dev := each Dev.napiDisable c.numRxq

def up (s : Dev) : ℤ × Dev :=
  let r := setupAllTxResources c o s
  if r.1 ≠ 0 then r
  else
    let r := setupAllRxResources c o r.2
    -- `setupAllRxResources` has freed the receive queues that it had set up
    if r.1 ≠ 0 then (r.1, freeAllTxResources c r.2)
    else (0, { napiEnableAll c r.2 with watchdogTask := true })

def down (s : Dev) : Dev :=
  freeAllRxResources c (freeAllTxResources c (napiDisableAll c { s with watchdogTask := false }))

/-- `qdma_net_reset`, which does not look at what `qdma_net_up` returns. -/
def reset (s : Dev) : Dev := (up c o (down c s)).2

def netOpen (s : Dev) : ℤ × Dev := if c.devHndl = 0 then (-EINVAL, s) else up c o s

def netClose (s : Dev) : Dev := down c s

def resetTask (s : Dev) : Dev := if s.running then reset c o s else s

inductive Event
  | ndoOpen (o : Outcome)
  | ndoStop
  | resetTask (o : Outcome)

/-- The kernel opens an interface that is not running and stops one that is. -/
def Allowed (s : Dev) : Event → Prop
  | .ndoOpen _ => s.running = false
  | .ndoStop => s.running = true
  | .resetTask _ => True

/-- The interface runs from an open that succeeds to the next stop. -/
def step (s : Dev) : Event → Dev
  | .ndoOpen o =>
    let r := netOpen c o s
    { r.2 with running := r.1 = 0 }
  | .ndoStop => { netClose c s with running := false }
  -- the interface goes on running, also when the reset does not bring the device up again
  | .resetTask o => resetTask c o s

def UpFails (s : Dev) : Event → Prop
  | .ndoOpen o => c.devHndl ≠ 0 ∧ (up c o s).1 ≠ 0
  | .ndoStop => False
  | .resetTask o => s.running = true ∧ (up c o (down c s)).1 ≠ 0

/-- NAPI of queue `q` is enabled and disabled in turn, its state being whether it is enabled. -/
def napiMonitor (q : ℕ) (enabled : Bool) : Action → Option Bool
  | .napiEnable r => if r = q then if enabled then none else some true else some enabled
  | .napiDisable r => if r = q then if enabled then some false else none else some enabled
  | _ => some enabled

/-- Queue `k` is not stopped or deleted once it has been deleted, until it is added again. -/
def queueMonitor (k : QueueId) (deleted : Bool) : Action → Option Bool
  | .queueAdd j => some (if j = k then false else deleted)
  | .queueStop j => if j = k ∧ deleted then none else some deleted
  | .queueDelete j => if j = k then if deleted then none else some true else some deleted
  | _ => some deleted

def NapiAlternates (log : List Action) : Prop := ∀ q, Accepts (napiMonitor q) false log

def NoUseAfterDelete (log : List Action) : Prop := ∀ k, Accepts (queueMonitor k) false log

def Dev.Clean (s : Dev) : Prop := (∀ k, s.registered k = false) ∧ ∀ q, s.txCtxPool q = none

def Balanced (s : Dev) (e : Event) : Prop :=
  NapiAlternates (step c s e).log ∧ NoUseAfterDelete (step c s e).log ∧
    (UpFails c s e → (step c s e).Clean)

end QdmaTrafficGen.QdmaNet
