import GethComments.Core.BlockChain
import GethComments.Core.StateProcessor
import GethComments.Lib.WriteOnly

/-!
# Importing a chain of blocks

`insertChain` with its iterator, `insertSideChain`, `ValidateBody` and
`ValidateState`, as computations on the chain. The consensus engine, the hashes of
lists, the clock and the other outside parts are collected in `ImportEnv`.
-/

namespace GethComments

open BlockChain

inductive ImportError where
  | knownBlock
  | unknownAncestor
  | prunedAncestor
  | futureBlock
  | futureTimestamp
  | blacklistedHash
  | uncleRoot
  | txRoot
  | invalidBloom
  | invalidReceiptRoot
  | invalidMerkleRoot
  | missingState
  | ghostState
  | missingParent
  | exec (e : ExecError)
  | chain (e : ChainError)
  /-- Any other error of the consensus engine. -/
  | engine (code : Nat)
  /-- The recursion of `insertSideChain` into `insertChain` is deeper than the fuel. -/
  | outOfFuel
  deriving DecidableEq, Repr

namespace ImportError

def ofChain : ChainError → ImportError
  | .unknownAncestor => unknownAncestor
  | e => chain e

end ImportError

structure ImportEnv extends ExecEnv where
  verifyHeaders : ChainReader → List Header → Bool → List (Option ImportError)
  verifyUncles : ChainReader → Block → Option ImportError
  calcUncleHash : List Header → Hash
  deriveSha : List Transaction → Hash
  receiptSha : List Receipt → Hash
  createBloom : List Receipt → Bytes
  badHashes : Hash → Bool
  /-- The latest timestamp of a block that is kept for later. -/
  maxTime : UInt64
  /-- Whether the node is shutting down, at the start and before each block. -/
  procInterrupt : Nat → Bool
  blockSize : Block → Nat
  commit : StateDB → Option Hash
  coin : Block → Bool
  pruned : Block → List Hash

namespace BlockChain

def reader (bc : BlockChain) : ChainReader := ⟨bc.currentHeader, bc.blocks, bc.canonical⟩

def hasState (bc : BlockChain) (root : Hash) : Bool := (bc.stateAt root).isSome

def hasBlock (bc : BlockChain) (hash : Hash) (number : UInt64) : Bool :=
  (bc.getBlock hash number).isSome

def hasBlockAndState (bc : BlockChain) (hash : Hash) (number : UInt64) : Bool :=
  match bc.getBlock hash number with
  | none => false
  | some block => bc.hasState block.header.root

def getBlockByNumber (bc : BlockChain) (number : UInt64) : Option Block :=
  (bc.canonical number).bind fun hash => bc.getBlock hash number

end BlockChain

abbrev ImportM := StateM BlockChain

/-- A function on chains as a computation. -/
def liftChain {ρ : Type} (f : BlockChain → BlockChain × ρ) : ImportM ρ :=
  fun bc => ((f bc).2, (f bc).1)

/-- A block with the result of verifying its header. -/
abbrev ImportItem := Block × Option ImportError

/-- Where the iterator stands: its index, the header before the current block, the
current block with its error, and the blocks to come. -/
structure Cursor where
  index : Nat
  prev : Option Header
  cur : Option (Block × Option ImportError)
  rest : List ImportItem

namespace ImportEnv

variable [HashFns] (env : ImportEnv)

/-! ## Validation -/

def validateBody (bc : BlockChain) (block : Block) : Option ImportError :=
  if bc.hasBlockAndState block.hash block.numberU64 then some .knownBlock
  else
    match env.verifyUncles bc.reader block with
    | some e => some e
    | none =>
      if env.calcUncleHash block.uncles ≠ block.header.uncleHash then some .uncleRoot
      else if env.deriveSha block.transactions ≠ block.header.txHash then some .txRoot
      else if !bc.hasBlockAndState block.parentHash (block.numberU64 - 1) then
        if !bc.hasBlock block.parentHash (block.numberU64 - 1) then some .unknownAncestor
        else some .prunedAncestor
      else none

/-- The gas used is not compared with the header's. -/
def validateState (block : Block) (p : Processed) : Option ImportError :=
  if env.createBloom p.receipts ≠ block.header.bloom then some .invalidBloom
  else if env.receiptSha p.receipts ≠ block.header.receiptHash then some .invalidReceiptRoot
  else if env.intermediateRoot p.state ≠ block.header.root then some .invalidMerkleRoot
  else none

/-- The error of an item: of its header, else of its body. -/
def check (item : ImportItem) : ImportM (Option ImportError) :=
  match item.2 with
  | some e => pure (some e)
  | none => observe fun bc => env.validateBody bc item.1

/-! ## The loops of `insertChain` -/

/-- Skips known blocks as long as they are no better than the head. -/
def skipKnown (localTd : Nat) : Nat → Nat → Option Header → Block → Option ImportError →
    List ImportItem → ImportM Cursor
  | externTd, i, prev, b, e, rest =>
    if e = some .knownBlock then
      if localTd < externTd + b.difficulty then pure ⟨i, prev, some (b, e), rest⟩
      else
        match rest with
        | [] => pure ⟨i + 1, some b.header, none, []⟩
        | x :: rest => do
            let e ← env.check x
            skipKnown localTd (externTd + b.difficulty) (i + 1) (some b.header) x.1 e rest
    else pure ⟨i, prev, some (b, e), rest⟩

/-- Writes known blocks that are better than the head. -/
def writeKnown : Nat → Option Header → Block → Option ImportError → List ImportItem →
    ImportM (Except (Nat × ImportError) Cursor)
  | i, prev, b, e, rest =>
    if e = some .knownBlock then do
      match ← liftChain (writeKnownBlock · b) with
      | some err => pure (.error (i, .ofChain err))
      | none =>
        match rest with
        | [] => pure (.ok ⟨i + 1, some b.header, none, []⟩)
        | x :: rest => do
            let e ← env.check x
            writeKnown (i + 1) (some b.header) x.1 e rest
    else pure (.ok ⟨i, prev, some (b, e), rest⟩)

/-- Executes and writes one block on top of its parent's state. -/
def importBlock (prev : Option Header) (b : Block) : ImportM (Option ImportError) := do
  match ← observe fun bc => prev.or ((bc.parent b).map Block.header) with
  | none => pure (some .missingParent)
  | some parent =>
    match ← observe (stateAt · parent.root) with
    | none => pure (some .missingState)
    | some st =>
      match ← observe fun bc => process env.toExecEnv bc.reader b st with
      | .error e => pure (some (.exec e))
      | .ok p =>
        match env.validateState b p with
        | some e => pure (some e)
        | none =>
          match ← liftChain (writeBlockWithState ·
            { block := b, state := p.state, commit := env.commit p.state, coin := env.coin b,
              pruned := env.pruned b }) with
          | .error e => pure (some (.ofChain e))
          | .ok _ => pure none

/-- A block without error is imported, a known one becomes the head again. -/
def importOrAdopt (prev : Option Header) (b : Block) (e : Option ImportError) :
    ImportM (Option ImportError) :=
  if e = none then env.importBlock prev b
  else do
    let err ← liftChain (writeKnownBlock · b)
    pure (err.map .ofChain)

/-- The main loop: blocks without error are imported and known ones become heads. -/
def importLoop : Nat → Option Header → Block → Option ImportError → List ImportItem →
    ImportM (Except (Nat × ImportError) Cursor)
  | i, prev, b, e, rest =>
    if e = none ∨ e = some .knownBlock then
      if env.procInterrupt (i + 1) then pure (.ok ⟨i, prev, some (b, e), rest⟩)
      else if env.badHashes b.hash then pure (.error (i, .blacklistedHash))
      else do
        match ← env.importOrAdopt prev b e with
        | some err => pure (.error (i, err))
        | none =>
          match rest with
          | [] => pure (.ok ⟨i + 1, some b.header, none, []⟩)
          | x :: rest => do
              let e ← env.check x
              importLoop (i + 1) (some b.header) x.1 e rest
    else pure (.ok ⟨i, prev, some (b, e), rest⟩)

def addFutureBlock (b : Block) : ImportM (Option ImportError) :=
  if b.header.time > env.maxTime then pure (some .futureTimestamp)
  else do
    modify fun bc => { bc with futureBlocks := b :: bc.futureBlocks }
    pure none

/-- Keeps a future block and the blocks on top of it for later. -/
def postpone : Nat → Block → Option ImportError → List ImportItem →
    ImportM (Nat × Option ImportError)
  | i, b, e, rest =>
    if i = 0 ∨ e = some .unknownAncestor then do
      match ← env.addFutureBlock b with
      | some err => pure (i, some err)
      | none =>
        match rest with
        | [] => pure (i + 1, none)
        | x :: rest => do
            let e ← env.check x
            postpone (i + 1) x.1 e rest
    else pure (i, e)

/-! ## Side chains -/

/-- One block of a side chain whose ancestor's state is pruned: the new total
difficulty, or the error of a ghost-state attack. -/
def sideBlock (current : Block) (externTd : Option Nat) (b : Block) :
    ImportM (Except ImportError (Option Nat)) := do
  let canonical ← observe (getBlockByNumber · b.numberU64)
  let known := canonical.filter fun _ => b.numberU64 ≤ current.numberU64
  if (known.map Block.hash) = some b.hash then
    let td ← observe (getTd · b.hash b.numberU64)
    pure (.ok td)
  else if known.map (fun c => c.header.root) = some b.header.root then pure (.error .ghostState)
  else do
    let parentTd ← observe (getTd · b.parentHash (b.numberU64 - 1))
    let td := (externTd.or parentTd).getD 0 + b.difficulty
    modify fun bc =>
      if bc.hasBlock b.hash b.numberU64 then bc else bc.writeBlockWithoutState b td
    pure (.ok (some td))

def sideLoop (current : Block) : Option Nat → Nat → Option Header → Block → Option ImportError →
    List ImportItem → ImportM (Except (Nat × ImportError) (Option Nat × Cursor))
  | externTd, i, prev, b, e, rest =>
    if e = some .prunedAncestor then do
      match ← sideBlock current externTd b with
      | .error err => pure (.error (i, err))
      | .ok externTd =>
        match rest with
        | [] => pure (.ok (externTd, ⟨i + 1, some b.header, none, []⟩))
        | x :: rest => do
            let e ← env.check x
            sideLoop current externTd (i + 1) (some b.header) x.1 e rest
    else pure (.ok (externTd, ⟨i, prev, some (b, e), rest⟩))

/-- The headers back to one whose state is present, latest first, and whether there
is one; the number bounds the way back. -/
def pathToState (bc : BlockChain) : Nat → Option Header → List Header × Bool
  | _, none => ([], false)
  | n, some h =>
    if bc.hasState h.root then ([], true)
    else
      match n with
      | 0 => ([h], false)
      | n + 1 =>
        let parent := bc.getBlock h.parentHash (UInt64.ofNat h.number - 1)
        let (path, found) := pathToState bc n (parent.map Block.header)
        (h :: path, found)

/-- Imports the collected blocks in segments of at most 2048 blocks or 64 MiB. -/
def reimport (importSegment : List Block → ImportM (Nat × Option ImportError)) :
    List Header → List Block → Nat → ImportM (Nat × Option ImportError)
  | [], [], _ => pure (0, none)
  | [], segment, _ => importSegment segment
  | h :: hs, segment, memory => do
      match ← observe (getBlock · h.hash (UInt64.ofNat h.number)) with
      | none => pure (0, some .missingParent)
      | some b =>
        let segment := segment ++ [b]
        let memory := memory + env.blockSize b
        if 2048 ≤ segment.length ∨ 64 * 1024 * 1024 < memory then do
          let (_, err) ← importSegment segment
          match err with
          | some err => pure (0, some err)
          | none =>
            if env.procInterrupt segment.length then pure (0, none)
            else reimport importSegment hs [] 0
        else reimport importSegment hs segment memory

def insertSideChain (importSegment : List Block → ImportM (Nat × Option ImportError))
    (i : Nat) (prev : Option Header) (b : Block) (rest : List ImportItem) :
    ImportM (Nat × Option ImportError) := do
  let current ← observe currentBlock
  match ← env.sideLoop current none i prev b (some .prunedAncestor) rest with
  | .error (i, err) => pure (i, some err)
  | .ok (externTd, c) =>
    let localTd ← observe (getTd · current.hash current.numberU64)
    if localTd.getD 0 > externTd.getD 0 then pure (c.index, c.cur.bind Prod.snd)
    else do
      let (path, found) ← observe fun bc =>
        pathToState bc ((c.prev.map Header.number).getD 0) c.prev
      if found then env.reimport importSegment path.reverse [] 0
      else pure (c.index, some .missingParent)

/-! ## `insertChain` -/

/-- After the known blocks at the start: a side chain, future blocks, an error, or
the main loop. -/
def insertFrom (importSegment : List Block → ImportM (Nat × Option ImportError))
    (first : Block) (c : Cursor) : ImportM (Nat × Option ImportError) :=
  match c.cur with
  | none => pure (c.index, none)
  | some (b, e) => do
    let orphan ← observe fun bc => bc.futureBlocks.any fun f => f.hash = first.parentHash
    if e = some .prunedAncestor then env.insertSideChain importSegment c.index c.prev b c.rest
    else if e = some .futureBlock ∨ (e = some .unknownAncestor ∧ orphan) then
      env.postpone c.index b e c.rest
    else if e ≠ none then do
      modify fun bc => bc.removeFutureBlock b.hash
      pure (c.index, e)
    else do
      match ← env.importLoop c.index c.prev b e c.rest with
      | .error (i, err) => pure (i, some err)
      | .ok c =>
        match c.cur with
        | some (b, some .futureBlock) => do
            match ← env.addFutureBlock b with
            | some err => pure (c.index, some err)
            | none =>
              match c.rest with
              | [] => pure (c.index + 1, none)
              | x :: rest => do
                  let e ← env.check x
                  env.postpone (c.index + 1) x.1 e rest
        | cur => pure (c.index, cur.bind Prod.snd)

/-- `insertChain`, with the depth of its recursion through `insertSideChain` as fuel:
the index it stops at and the error. -/
def insertChain : Nat → List Block → Bool → ImportM (Nat × Option ImportError)
  | 0, _, _ => pure (0, some .outOfFuel)
  | _, [], _ => pure (0, none)
  | fuel + 1, first :: others, verifySeals =>
    if env.procInterrupt 0 then pure (0, none)
    else do
      let chain := first :: others
      let results ← observe fun bc =>
        env.verifyHeaders bc.reader (chain.map Block.header) verifySeals
      let items : List ImportItem := chain.zipIdx.map fun bi => (bi.1, (results[bi.2]?).join)
      match items with
      | [] => pure (0, none)
      | x :: rest => do
        let e ← env.check x
        let importSegment := fun blocks => insertChain fuel blocks false
        if e = some .knownBlock then do
          let localTd ← observe fun bc =>
            (bc.getTd bc.currentBlock.hash bc.currentBlock.numberU64).getD 0
          let externTd ← observe fun bc =>
            (bc.getTd x.1.parentHash (x.1.numberU64 - 1)).getD 0
          let c ← env.skipKnown localTd externTd 0 none x.1 e rest
          match c.cur with
          | none => pure (c.index, none)
          | some (b, e) => do
            match ← env.writeKnown c.index c.prev b e c.rest with
            | .error (i, err) => pure (i, some err)
            | .ok c => env.insertFrom importSegment first c
        else env.insertFrom importSegment first ⟨0, none, some (x.1, e), rest⟩

end ImportEnv

end GethComments
