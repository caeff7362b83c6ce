import GethComments.Core.BlockChain
import GethComments.Core.CommitmentLedger
import GethComments.Core.TxIndex
import Mathlib.Data.UInt

/-!
# The transaction pool

`add`, `enqueueTx`, `promoteTx`, `removeTx`, `promoteExecutables`, `truncatePending`,
`truncateQueue`, `demoteUnexecutables` and `reset` of `tx_pool.go`, on an explicit state.
The pool holds the chain, whose commitment database it reads and writes. What the source
leaves to chance (the order in which a map is visited, the clock) is an argument.

The field `events` is the pool's account of its effects on commitments, latest first; no
operation reads it.
-/

namespace GethComments

open UInt64

structure TxPoolConfig where
  locals : List Address
  priceBump : UInt64
  accountSlots : UInt64
  globalSlots : UInt64
  accountQueue : UInt64
  globalQueue : UInt64
  /-- The key of the exchange, which signs purchases. -/
  exchange : Zkp.PublicKey
  /-- The key of the regulator, under which transfers are proved. -/
  regulator : Zkp.PublicKey

namespace TxPoolConfig

/-- `sanitize`: a limit of 0 is replaced by the default. -/
def sanitize (config : TxPoolConfig) : TxPoolConfig :=
  { config with
    priceBump := if config.priceBump < 1 then 10 else config.priceBump
    accountSlots := if config.accountSlots < 1 then 16 else config.accountSlots
    globalSlots := if config.globalSlots < 1 then 4096 else config.globalSlots
    accountQueue := if config.accountQueue < 1 then 64 else config.accountQueue
    globalQueue := if config.globalQueue < 1 then 1024 else config.globalQueue }

end TxPoolConfig

variable [HashFns]

structure TxPool where
  config : TxPoolConfig
  chain : BlockChain
  /-- `types.Sender` with the pool's signer. -/
  signer : Transaction → Option Address
  currentState : StateDB
  pendingNonces : TxNoncer
  currentMaxGas : UInt64
  locals : List Address
  /-- The transactions written to the journal, if there is one. -/
  journal : Option (List Transaction)
  pending : AList fun _ : Address => TxList
  queue : AList fun _ : Address => TxList
  beats : Address → Option Nat
  all : TxLookup
  priced : TxPricedList
  events : List CMEvent

namespace TxPool

/-! ## Effects on commitments -/

/-- The address of a sender whose signature has been checked. -/
def sender (pool : TxPool) (tx : Transaction) : Address := (pool.signer tx).getD zeroAddress

/-- `locals.containsTx`. -/
def isLocal (pool : TxPool) (tx : Transaction) : Bool :=
  ((pool.signer tx).map fun addr => decide (addr ∈ pool.locals)).getD false

/-- `processCM`, `all.Add` and `priced.Put`. -/
def lockTx (pool : TxPool) (tx : Transaction) : TxPool :=
  { pool with
    chain := { pool.chain with cmdb := processCM pool.chain.cmdb tx }
    all := pool.all.add tx
    priced := pool.priced.put tx
    events := .lock tx :: pool.events }

/-- `reorgCM` and `all.Remove`. -/
def unlockTx (pool : TxPool) (tx : Transaction) : TxPool :=
  { pool with
    chain := { pool.chain with cmdb := reorgCM pool.chain.cmdb tx }
    all := pool.all.remove tx.hash
    events := .unlock tx :: pool.events }

/-- `all.Remove` alone. -/
def forgetTx (pool : TxPool) (tx : Transaction) : TxPool :=
  { pool with all := pool.all.remove tx.hash, events := .forget tx :: pool.events }

/-- `priced.Removed`. -/
def pricedRemoved (pool : TxPool) (count : Nat) : TxPool :=
  { pool with priced := pool.priced.removed pool.all count }

def setPending (pool : TxPool) (addr : Address) (list : TxList) : TxPool :=
  { pool with pending := pool.pending.insert addr list }

def setQueue (pool : TxPool) (addr : Address) (list : TxList) : TxPool :=
  { pool with queue := pool.queue.insert addr list }

/-- Deletes the pending list of an account with its heartbeat, if it is empty. -/
def deletePendingIfEmpty (pool : TxPool) (addr : Address) (list : TxList) : TxPool :=
  if list.isEmpty then
    { pool with pending := pool.pending.erase addr, beats := Function.update pool.beats addr none }
  else pool

def deleteQueueIfEmpty (pool : TxPool) (addr : Address) (list : TxList) : TxPool :=
  if list.isEmpty then { pool with queue := pool.queue.erase addr } else pool

/-- A replaced transaction leaves the pool. -/
def dropOld (pool : TxPool) : Option Transaction → TxPool
  | none => pool
  | some old => (pool.unlockTx old).pricedRemoved 1

/-- A transaction enters the pool unless it is known already. -/
def lockNew (pool : TxPool) (hash : Hash) (tx : Transaction) : TxPool :=
  if (pool.all.get hash).isNone then pool.lockTx tx else pool

/-! ## Single transactions -/

/-- `enqueueTx`, with whether a transaction was replaced. -/
def enqueueTx (pool : TxPool) (hash : Hash) (tx : Transaction) : TxPool × Except TxError Bool :=
  let addr := pool.sender tx
  let list := (pool.queue.lookup addr).getD (newTxList false)
  match list.add tx pool.config.priceBump with
  | none => (pool, .error .replaceUnderpriced)
  | some (old, list) => (((pool.setQueue addr list).dropOld old).lockNew hash tx, .ok old.isSome)

/-- The end of `promoteTx`: the account's heartbeat and virtual nonce. -/
def touch (pool : TxPool) (addr : Address) (now : Nat) (nonce : UInt64) : TxPool :=
  { pool with
    beats := Function.update pool.beats addr (some now)
    pendingNonces := pool.pendingNonces.set addr nonce }

/-- `promoteTx`, with whether the transaction is pending now. -/
def promoteTx (pool : TxPool) (addr : Address) (hash : Hash) (tx : Transaction) (now : Nat) :
    TxPool × Bool :=
  let list := (pool.pending.lookup addr).getD (newTxList true)
  match list.add tx pool.config.priceBump with
  | none => ((pool.unlockTx tx).pricedRemoved 1, false)
  | some (old, list) =>
    ((((pool.setPending addr list).dropOld old).lockNew hash tx).touch addr now
      (tx.accountNonce + 1), true)

/-- The removal of `tx` from the queue of its sender. -/
def removeQueued (pool : TxPool) (addr : Address) (tx : Transaction) : TxPool :=
  match pool.queue.lookup addr with
  | none => pool
  | some future =>
    let future := ((future.remove tx).map Prod.snd).getD future
    (pool.setQueue addr future).deleteQueueIfEmpty addr future

/-- Transactions that lost their place among the pending ones go back to the queue. -/
def enqueueAll (pool : TxPool) (txs : List Transaction) : TxPool :=
  txs.foldl (fun pool tx => (pool.enqueueTx tx.hash tx).1) pool

/-- The removal of `tx` from the lists of its sender. -/
def removeListed (pool : TxPool) (addr : Address) (tx : Transaction) : TxPool :=
  match (pool.pending.lookup addr).bind fun list => list.remove tx with
  | none => pool.removeQueued addr tx
  | some (invalids, list) =>
    let pool := (pool.setPending addr list).deletePendingIfEmpty addr list
    let pool := pool.enqueueAll invalids
    { pool with pendingNonces := pool.pendingNonces.setIfLower addr tx.accountNonce }

def removeTx (pool : TxPool) (hash : Hash) (outofbound : Bool) : TxPool :=
  match pool.all.get hash with
  | none => pool
  | some tx =>
    let pool := pool.unlockTx tx
    let pool := if outofbound then pool.pricedRemoved 1 else pool
    pool.removeListed (pool.sender tx) tx

/-! ## Admission -/

/-- `validateTx`. The intrinsic gas of a transaction of this size does not overflow, and a
transaction with less gas is admitted all the same. -/
def validateTx (pool : TxPool) (tx : Transaction) : Option TxError :=
  if tx.size > txMaxSize then some .oversizedData
  else if tx.amount < 0 then some .negativeValue
  else if pool.currentMaxGas < tx.gasLimit then some .gasLimit
  else
    match pool.signer tx with
    | none => some .invalidSender
    | some sender =>
      if pool.currentState.nonce sender > tx.accountNonce then some .nonceTooLow else none

/-- The checks at the start of `add`, in their order. -/
def validate (pool : TxPool) (tx : Transaction) : Option TxError :=
  if (pool.all.get tx.hash).isSome then some .alreadyKnown
  else
    match validateCM pool.chain.cmdb tx with
    | some err => some err
    | none =>
      let proofs :=
        if tx.id = 1 then validateSign pool.config.exchange tx
        else if tx.id = 0 then verifyzkp pool.config.regulator tx
        else some .idFormat
      match proofs with
      | some err => some err
      | none => pool.validateTx tx

/-- A full pool refuses an underpriced transaction, or drops the cheapest ones to make room. -/
def makeRoom (pool : TxPool) (tx : Transaction) (isLocal : Bool) : TxPool × Option TxError :=
  let limit := pool.config.globalSlots + pool.config.globalQueue
  if ofNat pool.all.count < limit then (pool, none)
  else
    let (under, priced) :=
      if isLocal then (false, pool.priced) else pool.priced.underpriced pool.all tx pool.isLocal
    let pool := { pool with priced }
    if under then (pool, some .underpriced)
    else
      let slots := pool.all.slots - limit.toInt64.toInt + numSlots tx
      let (drop, priced) := pool.priced.discard pool.all slots pool.isLocal
      let pool := { pool with priced }
      (drop.foldl (fun pool tx => pool.removeTx tx.hash false) pool, none)

/-- `journalTx`. -/
def journalTx (pool : TxPool) (addr : Address) (tx : Transaction) : TxPool :=
  if addr ∈ pool.locals then { pool with journal := pool.journal.map (· ++ [tx]) } else pool

def addLocal (pool : TxPool) (addr : Address) : TxPool :=
  if addr ∈ pool.locals then pool else { pool with locals := addr :: pool.locals }

/-- `add` after the checks: a replacement among the pending transactions, or into the queue. -/
def insertTx (pool : TxPool) (tx : Transaction) (isLocal : Bool) : TxPool × Except TxError Bool :=
  let addr := pool.sender tx
  match (pool.pending.lookup addr).filter fun list => list.overlaps tx with
  | some list =>
    match list.add tx pool.config.priceBump with
    | none => (pool, .error .replaceUnderpriced)
    | some (old, list) =>
      ((((pool.setPending addr list).dropOld old).lockTx tx).journalTx addr tx, .ok old.isSome)
  | none =>
    match pool.enqueueTx tx.hash tx with
    | (pool, .error err) => (pool, .error err)
    | (pool, .ok replaced) =>
      let pool := if isLocal then pool.addLocal addr else pool
      (pool.journalTx addr tx, .ok replaced)

/-- `add`, with whether a transaction was replaced. -/
def add (pool : TxPool) (tx : Transaction) (isLocal : Bool) : TxPool × Except TxError Bool :=
  match pool.validate tx with
  | some err => (pool, .error err)
  | none =>
    match pool.makeRoom tx isLocal with
    | (pool, some err) => (pool, .error err)
    | (pool, none) => pool.insertTx tx isLocal

/-! ## Promotion and demotion -/

/-- Transactions that are dropped from a list leave the pool. -/
def unlockAll (pool : TxPool) (txs : List Transaction) : TxPool := txs.foldl unlockTx pool

def forgetAll (pool : TxPool) (txs : List Transaction) : TxPool := txs.foldl forgetTx pool

/-- Promotes transactions in order, and returns the ones that are pending now. -/
def promoteAll (pool : TxPool) (addr : Address) (now : Nat) : List Transaction →
    TxPool × List Transaction
  | [] => (pool, [])
  | tx :: txs =>
    let (pool, inserted) := pool.promoteTx addr tx.hash tx now
    let (pool, promoted) := pool.promoteAll addr now txs
    (pool, if inserted then tx :: promoted else promoted)

/-- The transactions of an account over the limit of queued ones; local accounts have none. -/
def capQueue (pool : TxPool) (addr : Address) (list : TxList) : List Transaction × TxList :=
  if addr ∈ pool.locals then ([], list) else list.cap pool.config.accountQueue.toNat

/-- The loop body of `promoteExecutables`. -/
def promoteAccount (pool : TxPool) (addr : Address) (now : Nat) : TxPool × List Transaction :=
  match pool.queue.lookup addr with
  | none => (pool, [])
  | some list =>
    -- too old
    let (forwards, list) := list.forward (pool.currentState.nonce addr)
    let pool := (pool.setQueue addr list).unlockAll forwards
    -- too costly
    let (drops, _, list) := list.filter (pool.currentState.balance addr) pool.currentMaxGas
    let pool := (pool.setQueue addr list).unlockAll drops
    -- executable
    let (readies, list) := list.ready (pool.pendingNonces.get addr)
    let (pool, promoted) := (pool.setQueue addr list).promoteAll addr now readies
    -- over the limit
    let (caps, list) := pool.capQueue addr list
    let pool := (pool.setQueue addr list).unlockAll caps
    let pool := pool.pricedRemoved (forwards.length + drops.length + caps.length)
    (pool.deleteQueueIfEmpty addr list, promoted)

/-- `promoteExecutables`; `now` is the time at which an account's transactions are promoted. -/
def promoteExecutables (pool : TxPool) (now : Address → Nat) : List Address →
    TxPool × List Transaction
  | [] => (pool, [])
  | addr :: accounts =>
    let (pool, promoted) := pool.promoteAccount addr (now addr)
    let (pool, promoted') := pool.promoteExecutables now accounts
    (pool, promoted ++ promoted')

/-- The keys of a map in the order in which they are visited: every key once. -/
def visit (keys order : List Address) : List Address :=
  order.dedup.filter (· ∈ keys) ++ keys.filter (· ∉ order)

/-- Transactions behind a gap at the state's nonce are postponed, all of them. -/
def postponeGapped (pool : TxPool) (addr : Address) (list : TxList) (nonce : UInt64) :
    TxPool × TxList :=
  if list.len > 0 && (list.get nonce).isNone then
    let (gapped, list) := list.cap 0
    ((pool.setPending addr list).enqueueAll gapped, list)
  else (pool, list)

/-- The loop body of `demoteUnexecutables`. The old transactions leave without `reorgCM`. -/
def demoteAccount (pool : TxPool) (addr : Address) : TxPool :=
  match pool.pending.lookup addr with
  | none => pool
  | some list =>
    let nonce := pool.currentState.nonce addr
    let (olds, list) := list.forward nonce
    let pool := (pool.setPending addr list).forgetAll olds
    let (drops, invalids, list) := list.filter (pool.currentState.balance addr) pool.currentMaxGas
    let pool := (pool.setPending addr list).unlockAll drops
    let pool := pool.pricedRemoved (olds.length + drops.length)
    let pool := pool.enqueueAll invalids
    let (pool, list) := pool.postponeGapped addr list nonce
    pool.deletePendingIfEmpty addr list

def demoteUnexecutables (pool : TxPool) (order : List Address) : TxPool :=
  (visit pool.pending.keys order).foldl demoteAccount pool

/-! ## Truncation -/

def listLen (lists : AList fun _ : Address => TxList) (addr : Address) : Nat :=
  ((lists.lookup addr).map TxList.len).getD 0

/-- The number of transactions in the lists, as a 64-bit counter. -/
def listsCount (lists : AList fun _ : Address => TxList) : UInt64 :=
  (lists.entries.map fun e => ofNat e.2.len).sum

/-- The last pending transaction of an offender leaves. -/
def capOne (pool : TxPool) (addr : Address) : TxPool :=
  match pool.pending.lookup addr with
  | none => pool
  | some list =>
    let (caps, list) := list.cap (list.len - 1)
    let pool := (pool.setPending addr list).unlockAll caps
    let nonces := caps.foldl (fun n tx => n.setIfLower addr tx.accountNonce) pool.pendingNonces
    { pool with pendingNonces := nonces }.pricedRemoved caps.length

/-- One round over the offenders; each loses a transaction and the counter goes down. -/
def capRound (offenders : List Address) (s : TxPool × UInt64) : TxPool × UInt64 :=
  offenders.foldl (fun s addr => (s.1.capOne addr, s.2 - 1)) s

/-- Rounds over the offenders as long as there are too many pending transactions and `last`
has more of them than `threshold`. -/
def capRounds (offenders : List Address) (last : Address) (threshold : Nat) :
    Nat → TxPool × UInt64 → TxPool × UInt64
  | 0, s => s
  | fuel + 1, s =>
    if s.2 > s.1.config.globalSlots && listLen s.1.pending last > threshold then
      capRounds offenders last threshold fuel (capRound offenders s)
    else s

/-- `spammers.Pop`: an account with the most pending transactions. -/
def popSpammer : List (Address × Nat) → Option (Address × List (Address × Nat))
  | [] => none
  | (addr, n) :: rest =>
    match popSpammer rest with
    | none => some (addr, [])
    | some (addr', rest') =>
      if rest.all fun r => r.2 ≤ n then some (addr, rest) else some (addr', (addr, n) :: rest')

/-- The loop that equalises the offenders, with the offenders found so far, latest first. -/
def equalize (rounds : Nat) : Nat → List (Address × Nat) → List Address → TxPool × UInt64 →
    List Address × (TxPool × UInt64)
  | 0, _, offenders, s => (offenders, s)
  | fuel + 1, spammers, offenders, s =>
    if s.2 > s.1.config.globalSlots then
      match popSpammer spammers with
      | none => (offenders, s)
      | some (offender, spammers) =>
        let s := match offenders with
          | [] => s
          | last :: _ =>
            capRounds offenders.reverse last (listLen s.1.pending offender) rounds s
        equalize rounds fuel spammers (offender :: offenders) s
    else (offenders, s)

/-- `truncatePending`; no loop runs for more rounds than there are transactions. -/
def truncatePending (pool : TxPool) (order : List Address) : TxPool :=
  let pending := listsCount pool.pending
  if pending ≤ pool.config.globalSlots then pool
  else
    let spammers := (visit pool.pending.keys order).filterMap fun addr =>
      let n := listLen pool.pending addr
      if addr ∉ pool.locals && ofNat n > pool.config.accountSlots then some (addr, n)
      else none
    let rounds := pool.all.count + 1
    let (offenders, s) := equalize rounds spammers.length spammers [] (pool, pending)
    match offenders with
    | [] => s.1
    | last :: _ =>
      (capRounds offenders.reverse last pool.config.accountSlots.toNat rounds s).1

/-- The loop of `truncateQueue`, over the accounts from the latest heartbeat on. -/
def truncateQueued : List Address → UInt64 → TxPool → TxPool
  | [], _, pool => pool
  | addr :: addresses, drop, pool =>
    if drop = 0 then pool
    else
      let txs := ((pool.queue.lookup addr).map TxList.flatten).getD []
      if ofNat txs.length ≤ drop then
        truncateQueued addresses (drop - ofNat txs.length)
          (txs.foldl (fun pool tx => pool.removeTx tx.hash true) pool)
      else
        -- only the last few transactions, and the overflow is gone
        (txs.reverse.take drop.toNat).foldl (fun pool tx => pool.removeTx tx.hash true) pool

def truncateQueue (pool : TxPool) (order : List Address) : TxPool :=
  let queued := listsCount pool.queue
  if queued ≤ pool.config.globalQueue then pool
  else
    let addresses := (visit pool.queue.keys order).filter (· ∉ pool.locals)
    let byHeartbeat := addresses.mergeSort fun a b =>
      (pool.beats a).getD 0 ≤ (pool.beats b).getD 0
    truncateQueued byHeartbeat.reverse (queued - pool.config.globalQueue) pool

/-! ## Reset -/

/-- `addTxsLocked`: the errors, and the senders of the new transactions. -/
def addTxsLocked (pool : TxPool) (isLocal : Bool) : List Transaction →
    TxPool × List (Option TxError) × List Address
  | [] => (pool, [], [])
  | tx :: txs =>
    match pool.add tx isLocal with
    | (pool, .error err) =>
      let (pool, errs, dirty) := pool.addTxsLocked isLocal txs
      (pool, some err :: errs, dirty)
    | (pool, .ok replaced) =>
      let (pool, errs, dirty) := pool.addTxsLocked isLocal txs
      (pool, none :: errs, if replaced then dirty else (pool.signer tx).toList ++ dirty)

/-- The transactions that a change of head drops from the chain, `none` where `reset` gives
up: a block is missing. A reorganisation of more than 64 blocks is skipped. -/
def reinject (chain : BlockChain) (oldHead newHead : Header) : Option (List Transaction) :=
  if oldHead.hash = newHead.parentHash then some []
  else
    let oldNum := (ofNat oldHead.number).toNat
    let newNum := (ofNat newHead.number).toNat
    if (oldNum : Int) - newNum > 64 || (newNum : Int) - oldNum > 64 then some []
    else do
      let rem ← chain.getBlock oldHead.hash (ofNat oldHead.number)
      let add ← chain.getBlock newHead.hash (ofNat newHead.number)
      match chain.reorgChains rem add with
      | .error _ => none
      | .ok (discarded, included) =>
        some (txDifference (discarded.flatMap Block.transactions)
          (included.flatMap Block.transactions))

/-- `reset`; without an old head nothing is reinjected. -/
def reset (pool : TxPool) (oldHead : Option Header) (newHead : Header) : TxPool :=
  match (oldHead.map fun old => reinject pool.chain old newHead).getD (some []) with
  | none => pool
  | some txs =>
    match pool.chain.stateAt newHead.root with
    | none => pool
    | some statedb =>
      let pool := { pool with
        currentState := statedb
        pendingNonces := TxNoncer.new statedb
        currentMaxGas := newHead.gasLimit }
      (pool.addTxsLocked false txs).1

end TxPool

end GethComments
