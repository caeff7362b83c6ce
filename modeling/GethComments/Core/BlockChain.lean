import GethComments.RawDB.Commitments

/-!
# The block chain

`writeBlockWithState`, `writeHeadBlock`, `reorg` and `Rollback`: the block store,
the total difficulties, the canonical index, the chain markers and the commitment
database. What the code decides by chance or leaves to other components (the coin
of a tie, the outcome of `state.Commit`, the tries that are garbage collected) is
an argument.
-/

namespace GethComments

open Function

inductive ChainError where
  | unknownAncestor
  | commitFailed
  | invalidOldChain
  | invalidNewChain
  deriving DecidableEq, Repr

inductive WriteStatus where
  | nonStatTy
  | canonStatTy
  | sideStatTy
  deriving DecidableEq, Repr

structure BlockChain where
  cmdb : CMdb
  /-- Headers and bodies by number and hash. -/
  blocks : UInt64 → Hash → Option Block
  /-- Total difficulties by number and hash. -/
  tds : UInt64 → Hash → Option Nat
  /-- The canonical hash of a number. -/
  canonical : UInt64 → Option Hash
  /-- The number of the block a transaction was included in. -/
  txLookup : Hash → Option Nat
  /-- The states that can be opened, by root. -/
  states : Hash → Option StateDB
  /-- The markers in the database. -/
  headBlockHash : Hash
  headHeaderHash : Hash
  headFastBlockHash : Hash
  /-- The markers in memory. -/
  currentBlock : Block
  currentHeader : Header
  currentFastBlock : Block
  /-- Whether a block of the local miner is preferred. -/
  shouldPreserve : Option (Block → Bool)
  /-- Blocks kept for a later import. -/
  futureBlocks : List Block

namespace BlockChain

def getBlock (bc : BlockChain) (hash : Hash) (number : UInt64) : Option Block :=
  bc.blocks number hash

def getTd (bc : BlockChain) (hash : Hash) (number : UInt64) : Option Nat := bc.tds number hash

def stateAt (bc : BlockChain) (root : Hash) : Option StateDB := bc.states root

variable [HashFns]

/-- `WriteTd` and `WriteBlock`. -/
def writeBlock (bc : BlockChain) (block : Block) (td : Nat) : BlockChain :=
  let n := block.numberU64
  { bc with
    blocks := update bc.blocks n (update (bc.blocks n) block.hash (some block))
    tds := update bc.tds n (update (bc.tds n) block.hash (some td)) }

/-- The block and, irrelevant of its canonical status, its commitments. -/
def storeBlock (bc : BlockChain) (block : Block) (td : Nat) : BlockChain :=
  { bc.writeBlock block td with cmdb := RawDB.writeAllCM bc.cmdb block }

/-- `WriteTxLookupEntries`. -/
def writeTxLookupEntries (bc : BlockChain) (block : Block) : BlockChain :=
  { bc with
    txLookup := block.transactions.foldl
      (fun m tx => update m tx.hash (some block.header.number)) bc.txLookup }

def writeHeadBlock (bc : BlockChain) (block : Block) : BlockChain :=
  -- a block on a side chain or an unknown one takes the other heads with it
  let updateHeads := bc.canonical block.numberU64 ≠ some block.hash
  let bc := { bc with canonical := update bc.canonical block.numberU64 (some block.hash) }
  let bc := bc.writeTxLookupEntries block
  let bc := { bc with headBlockHash := block.hash, currentBlock := block }
  if updateHeads then
    { bc with
      headHeaderHash := block.hash
      headFastBlockHash := block.hash
      currentHeader := block.header
      currentFastBlock := block }
  else bc

def removeFutureBlock (bc : BlockChain) (hash : Hash) : BlockChain :=
  { bc with futureBlocks := bc.futureBlocks.filter fun b => b.hash ≠ hash }

/-! ## Reorganisation -/

/-- The parent in the database, at the number below. -/
def parent (bc : BlockChain) (b : Block) : Option Block :=
  bc.getBlock b.parentHash (b.numberU64 - 1)

/-- Steps back `n` times and returns the blocks left behind, latest first, with the block
reached; `none` where a block is missing. -/
def stepBack (bc : BlockChain) : Nat → Block → Option (List Block × Block)
  | 0, b => some ([], b)
  | n + 1, b => do
      let p ← bc.parent b
      let (left, reached) ← bc.stepBack n p
      some (b :: left, reached)

/-- The second loop of `reorg`, from two blocks of one number, with the number as
fuel: below number 0 there is no block. -/
def commonAncestor (bc : BlockChain) :
    Nat → Block → Block → Except ChainError (List Block × List Block)
  | n, old, new =>
    if old.hash = new.hash then .ok ([], [])
    else
      match bc.parent old with
      | none => .error .invalidOldChain
      | some old' =>
        match bc.parent new with
        | none => .error .invalidNewChain
        | some new' =>
          match n with
          | 0 => .error .invalidOldChain
          | n + 1 => do
              let (oldChain, newChain) ← bc.commonAncestor n old' new'
              .ok (old :: oldChain, new :: newChain)

/-- The blocks to drop and the blocks to add, latest first. -/
def reorgChains (bc : BlockChain) (old new : Block) : Except ChainError (List Block × List Block) :=
  if old.numberU64 > new.numberU64 then
    match bc.stepBack (old.numberU64 - new.numberU64).toNat old with
    | none => .error .invalidOldChain
    | some (left, old) => do
        let (oldChain, newChain) ← bc.commonAncestor new.numberU64.toNat old new
        .ok (left ++ oldChain, newChain)
  else
    match bc.stepBack (new.numberU64 - old.numberU64).toNat new with
    | none => .error .invalidNewChain
    | some (left, new) => do
        let (oldChain, newChain) ← bc.commonAncestor old.numberU64.toNat old new
        .ok (oldChain, left ++ newChain)

/-- Whether the loop that deletes canonical numbers above `number` reaches `i`: all
numbers between them are assigned. -/
def reachesIndex (canonical : UInt64 → Option Hash) (number i : UInt64) : Bool :=
  number < i && (List.range (i - number).toNat).all
    fun d => (canonical (number + 1 + UInt64.ofNat d)).isSome

def deleteCanonicalAbove (bc : BlockChain) (number : UInt64) : BlockChain :=
  { bc with
    canonical := fun i => if reachesIndex bc.canonical number i then none else bc.canonical i }

def deleteTxLookupEntries (bc : BlockChain) (txs : List Transaction) : BlockChain :=
  { bc with
    txLookup := txs.foldl (fun m tx => update m tx.hash none) bc.txLookup }

/-- `reorg`: the new chain except its head is written in the canonical way, then the
indexes of the old one are deleted. The commitment database takes no part. -/
def reorg (bc : BlockChain) (oldBlock newBlock : Block) : Except ChainError BlockChain := do
  let (oldChain, newChain) ← bc.reorgChains oldBlock newBlock
  let added := newChain.tail.reverse
  let bc := added.foldl writeHeadBlock bc
  let deletedTxs := oldChain.flatMap Block.transactions
  let addedTxs := added.flatMap Block.transactions
  let bc := bc.deleteTxLookupEntries (txDifference deletedTxs addedTxs)
  .ok (bc.deleteCanonicalAbove bc.currentBlock.numberU64)

/-! ## Writing a block -/

/-- What a call of `writeBlockWithState` is given, and what it leaves to chance. -/
structure BlockWrite where
  block : Block
  state : StateDB
  /-- The root that `state.Commit` returns; `none` where it, or the flush of an
  archive node, fails. -/
  commit : Option Hash
  /-- `mrand.Float64() < 0.5`. -/
  coin : Bool
  /-- The tries that are garbage collected. -/
  pruned : List Hash

/-- Whether the new block becomes the head: by total difficulty, then the lower
number, then the preference for local blocks and the coin. -/
def shouldReorg (bc : BlockChain) (externTd localTd : Nat) (block : Block) (coin : Bool) : Bool :=
  let current := bc.currentBlock
  if externTd > localTd then true
  else if externTd = localTd then
    if block.numberU64 < current.numberU64 then true
    else if block.numberU64 = current.numberU64 then
      let preserve (b : Block) : Bool := (bc.shouldPreserve.map fun f => f b).getD false
      !preserve current && (preserve block || coin)
    else false
  else false

omit [HashFns] in
def commitState (bc : BlockChain) (root : Hash) (state : StateDB) (pruned : List Hash) :
    BlockChain :=
  { bc with
    states := fun r => if r ∈ pruned then none else update bc.states root (some state) r }

/-- The end of `writeBlockWithState`: the head moves to the block if it is better,
after a reorganisation if its parent is not the head. -/
def updateHead (bc : BlockChain) (externTd localTd : Nat) (block : Block) (coin : Bool) :
    BlockChain × Except ChainError WriteStatus :=
  if bc.shouldReorg externTd localTd block coin then
    if block.parentHash ≠ bc.currentBlock.hash then
      match bc.reorg bc.currentBlock block with
      | .error e => (bc, .error e)
      | .ok bc => ((bc.writeHeadBlock block).removeFutureBlock block.hash, .ok .canonStatTy)
    else ((bc.writeHeadBlock block).removeFutureBlock block.hash, .ok .canonStatTy)
  else (bc.removeFutureBlock block.hash, .ok .sideStatTy)

/-- `writeBlockWithState`: the new chain is returned beside the status, since a failed call
has written the block and its commitments all the same. -/
def writeBlockWithState (bc : BlockChain) (w : BlockWrite) :
    BlockChain × Except ChainError WriteStatus :=
  match bc.getTd w.block.parentHash (w.block.numberU64 - 1) with
  | none => (bc, .error .unknownAncestor)
  | some ptd =>
    let localTd := (bc.getTd bc.currentBlock.hash bc.currentBlock.numberU64).getD 0
    let externTd := w.block.difficulty + ptd
    let bc := bc.storeBlock w.block externTd
    match w.commit with
    | none => (bc, .error .commitFailed)
    | some root => (bc.commitState root w.state w.pruned).updateHead externTd localTd w.block w.coin

/-- `writeBlockWithoutState`: no commitments are written. -/
def writeBlockWithoutState (bc : BlockChain) (block : Block) (td : Nat) : BlockChain :=
  bc.writeBlock block td

def writeKnownBlock (bc : BlockChain) (block : Block) : BlockChain × Option ChainError :=
  if block.parentHash ≠ bc.currentBlock.hash then
    match bc.reorg bc.currentBlock block with
    | .error e => (bc, some e)
    | .ok bc => (bc.writeHeadBlock block, none)
  else (bc.writeHeadBlock block, none)

/-! ## Rollback -/

/-- The head header moves to its parent if it is `hash`; `none` where the parent is
missing, which stops the node. -/
def degradeHeader (bc : BlockChain) (hash : Hash) : Option BlockChain :=
  if bc.currentHeader.hash = hash then
    (bc.getBlock bc.currentHeader.parentHash (UInt64.ofNat bc.currentHeader.number - 1)).map
      fun newHead => { bc with
        headHeaderHash := bc.currentHeader.parentHash, currentHeader := newHead.header }
  else some bc

def degradeFastBlock (bc : BlockChain) (hash : Hash) : Option BlockChain :=
  if bc.currentFastBlock.hash = hash then
    (bc.parent bc.currentFastBlock).map fun newFast => { bc with
      headFastBlockHash := bc.currentFastBlock.parentHash, currentFastBlock := newFast }
  else some bc

def degradeBlock (bc : BlockChain) (hash : Hash) : Option BlockChain :=
  if bc.currentBlock.hash = hash then
    (bc.parent bc.currentBlock).map fun newBlock => { bc with
      headBlockHash := bc.currentBlock.parentHash, currentBlock := newBlock }
  else some bc

/-- The loop body of `Rollback`. -/
def rollbackOne (bc : BlockChain) (hash : Hash) : Option BlockChain := do
  let bc ← bc.degradeHeader hash
  let bc ← bc.degradeFastBlock hash
  bc.degradeBlock hash

/-- `Rollback`, from the last hash to the first. -/
def rollback (bc : BlockChain) (chain : List Hash) : Option BlockChain :=
  chain.reverse.foldlM rollbackOne bc

end BlockChain

end GethComments
