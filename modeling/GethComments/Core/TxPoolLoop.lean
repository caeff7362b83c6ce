import GethComments.Core.PoolRuns

/-!
# The loops of the pool

What the goroutines of the pool and its callers run under the lock: `addTxs`, `runReorg`,
`SetGasPrice`, the eviction of old accounts, and the rotation of the journal of local transactions
(`tx_journal.go`).

The journal is the list of its transactions. The order in which a map is visited, and the
clock, are arguments.
-/

namespace GethComments

variable [HashFns]

namespace TxPool

/-! ## Adding transactions -/

/-- The loop that merges the errors of the new transactions into `errs`. The slot of an error
is not passed by, so that a transaction without one leaves it to the next. -/
def mergeErrs : List (Option TxError) → List (Option TxError) → List (Option TxError)
  | errs, [] => errs
  | errs, err :: newErrs =>
    mergeErrs (errs.takeWhile Option.isSome ++ (errs.dropWhile Option.isSome).set 0 err) newErrs

/-- `addTxs` under the lock: the errors, and the accounts to promote. -/
def addTxs (pool : TxPool) (txs : List Transaction) (isLocal : Bool) :
    TxPool × List (Option TxError) × List Address :=
  let known (tx : Transaction) : Bool := (pool.all.get tx.hash).isSome
  let errs := txs.map fun tx => if known tx then some TxError.alreadyKnown else none
  let news := txs.filter fun tx => !known tx
  if news.isEmpty then (pool, errs, [])
  else
    let (pool, newErrs, dirty) := pool.addTxsLocked isLocal news
    (pool, mergeErrs errs newErrs, dirty)

theorem addTxs_eq (pool : TxPool) (txs : List Transaction) (isLocal : Bool) :
    pool.addTxs txs isLocal =
      let r := pool.addTxsLocked isLocal (txs.filter fun tx => !(pool.all.get tx.hash).isSome)
      (r.1, mergeErrs (txs.map fun tx =>
        if (pool.all.get tx.hash).isSome then some TxError.alreadyKnown else none) r.2.1,
        r.2.2) := by
  unfold addTxs
  dsimp only
  split
  · next hempty =>
    rw [List.isEmpty_iff.mp hempty]
    rfl
  · rfl

theorem addTxs_induction {P : TxPool → Prop} {pool : TxPool} {isLocal : Bool}
    (txs : List Transaction) (hstep : ∀ pool, ∀ tx ∈ txs, P pool → P (pool.add tx isLocal).1)
    (h : P pool) : P (pool.addTxs txs isLocal).1 := by
  rw [addTxs_eq]
  exact addTxsLocked_induction _ (fun p tx ht => hstep p tx (List.mem_filter.mp ht).1) h

/-! ## Reorganisation -/

/-- What a call of `runReorg` is given, with the orders in which it visits the maps. -/
structure ReorgRun where
  /-- The old and the new head, if there is a new one. -/
  heads : Option (Option Header × Header)
  dirtyAccounts : List Address
  now : Address → Nat
  promoteOrder : List Address
  demoteOrder : List Address
  pendingOrder : List Address
  queueOrder : List Address

/-- The last loop of `runReorg`: the virtual nonce of an account is the one after its last
pending transaction. An empty list would stop the node. -/
def updateNonces (pool : TxPool) : TxPool :=
  { pool with
    pendingNonces := pool.pending.entries.foldl
      (fun nonces e => (e.2.flatten.getLast?.map fun tx =>
        nonces.set e.1 (tx.accountNonce + 1)).getD nonces) pool.pendingNonces }

/-- The accounts that `runReorg` promotes: after a new head all that have queued ones. -/
def promoteAddrs (pool : TxPool) (r : ReorgRun) : List Address :=
  if r.heads.isSome then visit pool.queue.keys r.promoteOrder else r.dirtyAccounts

/-- `runReorg`, without the announcement of the promoted transactions. -/
def runReorg (pool : TxPool) (r : ReorgRun) : TxPool :=
  let pool := (r.heads.map fun h => pool.reset h.1 h.2).getD pool
  let pool := (pool.promoteExecutables r.now (pool.promoteAddrs r)).1
  let pool := if r.heads.isSome then pool.demoteUnexecutables r.demoteOrder else pool
  let pool := pool.truncatePending r.pendingOrder
  let pool := pool.truncateQueue r.queueOrder
  pool.updateNonces

/-! ## Removals from outside -/

/-- `SetGasPrice`; nothing reads the limit itself. -/
def setGasPrice (pool : TxPool) (price : Int) : TxPool :=
  let (drop, priced) := pool.priced.cap pool.all price pool.isLocal
  drop.foldl (fun pool tx => pool.removeTx tx.hash false) { pool with priced }

/-- The queued transactions of a remote account without a recent heartbeat are removed. -/
def evictAccount (lifetime now : Nat) (pool : TxPool) (addr : Address) : TxPool :=
  if addr ∈ pool.locals then pool
  else if ((pool.beats addr).map fun beat => decide (now - beat > lifetime)).getD true then
    (((pool.queue.lookup addr).map TxList.flatten).getD []).foldl
      (fun pool tx => pool.removeTx tx.hash true) pool
  else pool

/-- The eviction tick of `loop`. -/
def evict (pool : TxPool) (lifetime now : Nat) (order : List Address) : TxPool :=
  (visit pool.queue.keys order).foldl (evictAccount lifetime now) pool

/-! ## The journal -/

/-- `local`: the transactions of the local accounts, in the order of the accounts. -/
def localTxs (pool : TxPool) (order : List Address) : List Transaction :=
  (visit pool.locals order).flatMap fun addr =>
    ((pool.pending.lookup addr).map TxList.flatten).getD [] ++
      ((pool.queue.lookup addr).map TxList.flatten).getD []

/-- `rotate`: a journal is regenerated from the pool. -/
def rotate (pool : TxPool) (order : List Address) : TxPool :=
  { pool with journal := pool.journal.map fun _ => pool.localTxs order }

end TxPool

/-! ## Calls -/

/-- What happens to a pool and its chain between two releases of the lock. -/
inductive PoolCall where
  | addTxs (txs : List Transaction) (isLocal : Bool)
  | runReorg (r : TxPool.ReorgRun)
  | setGasPrice (price : Int)
  | evict (lifetime now : Nat) (order : List Address)
  | rotate (order : List Address)
  | writeBlock (w : BlockChain.BlockWrite)

namespace TxPool

def call (pool : TxPool) : PoolCall → TxPool
  | .addTxs txs isLocal => (pool.addTxs txs isLocal).1
  | .runReorg r => pool.runReorg r
  | .setGasPrice price => pool.setGasPrice price
  | .evict lifetime now order => pool.evict lifetime now order
  | .rotate order => pool.rotate order
  | .writeBlock w => pool.writeBlock w

def calls (pool : TxPool) (cs : List PoolCall) : TxPool := cs.foldl call pool

end TxPool

end GethComments
