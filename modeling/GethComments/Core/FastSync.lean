import GethComments.Core.BlockChain
import GethComments.Core.StateProcessor

/-!
# Fast synchronisation

`InsertReceiptChain` completes a chain of headers with bodies and receipts, in the ancient store
up to a limit and in the live database above it; `FastSyncCommitHead` switches the head.

* `cmdb_writeAncient`, `cmdb_writeLive`: neither part touches the commitment database;
* `cmdb_insertReceiptChains`, `cmdb_fastSyncCommitHead`: nor does a whole synchronisation.
-/

namespace GethComments

open Function Option

inductive FastError where
  | nonContiguous
  | interrupted
  | unknownHeader
  | sideBlocks
  | nonExistentBlock
  | missingState
  deriving DecidableEq, Repr

/-- What the ancient store holds under a number. -/
structure Ancient where
  hash : Hash
  block : Block
  receipts : List Receipt
  td : Option Nat

/-- The chain during a fast synchronisation: unlike in `BlockChain`, a header may be known
without its body. -/
structure FastChain where
  cmdb : CMdb
  headers : UInt64 → Hash → Option Header
  tds : UInt64 → Hash → Option Nat
  bodies : UInt64 → Hash → Option (List Transaction × List Header)
  receipts : UInt64 → Hash → Option (List Receipt)
  canonical : UInt64 → Option Hash
  /-- The number of a hash. -/
  numbers : Hash → Option UInt64
  txLookup : Hash → Option Nat
  ancients : List Ancient
  states : Hash → Option StateDB
  currentHeader : Header
  currentFastBlock : Block
  currentBlock : Block
  headFastBlockHash : Hash

namespace FastChain

/-! ## Reading -/

def ancient (fc : FastChain) (number : UInt64) : Option Ancient := fc.ancients[number.toNat]?

/-- The entry of the ancient store if it is for that hash. -/
def ancientOf (fc : FastChain) (hash : Hash) (number : UInt64) : Option Ancient :=
  (fc.ancient number).filter fun a => a.hash = hash

def readCanonicalHash (fc : FastChain) (number : UInt64) : Option Hash :=
  ((fc.ancient number).map Ancient.hash).or (fc.canonical number)

def hasHeader (fc : FastChain) (hash : Hash) (number : UInt64) : Bool :=
  (fc.ancientOf hash number).isSome || (fc.headers number hash).isSome

def hasBlock (fc : FastChain) (hash : Hash) (number : UInt64) : Bool :=
  (fc.ancientOf hash number).isSome || (fc.bodies number hash).isSome

def getTd (fc : FastChain) (hash : Hash) (number : UInt64) : Option Nat :=
  ((fc.ancientOf hash number).bind Ancient.td).or (fc.tds number hash)

def readReceipts (fc : FastChain) (hash : Hash) (number : UInt64) : List Receipt :=
  (((fc.ancientOf hash number).map Ancient.receipts).or (fc.receipts number hash)).getD []

def readBlock (fc : FastChain) (hash : Hash) (number : UInt64) : Option Block :=
  match fc.ancientOf hash number with
  | some a => some a.block
  | none => do
      let header ← fc.headers number hash
      let body ← fc.bodies number hash
      some ⟨header, body.1, body.2⟩

/-! ## Writing -/

def writeTxLookupEntries [HashFns] (fc : FastChain) (block : Block) : FastChain :=
  { fc with
    txLookup := block.transactions.foldl
      (fun m tx => update m tx.hash (some block.header.number)) fc.txLookup }

/-- `DeleteBlockWithoutNumber` and `DeleteCanonicalHash`. -/
def deleteCanonical (fc : FastChain) (nh : UInt64 × Hash) : FastChain :=
  { fc with
    headers := update fc.headers nh.1 (update (fc.headers nh.1) nh.2 none)
    tds := update fc.tds nh.1 (update (fc.tds nh.1) nh.2 none)
    bodies := update fc.bodies nh.1 (update (fc.bodies nh.1) nh.2 none)
    receipts := update fc.receipts nh.1 (update (fc.receipts nh.1) nh.2 none)
    canonical := update fc.canonical nh.1 none }

/-- `DeleteBlock` for all hashes that still have a header of that number. -/
def deleteSides (fc : FastChain) (nh : UInt64 × Hash) : FastChain :=
  let gone (h : Hash) : Bool := (fc.headers nh.1 h).isSome
  { fc with
    headers := update fc.headers nh.1 fun _ => none
    tds := update fc.tds nh.1 fun h => if gone h then none else fc.tds nh.1 h
    bodies := update fc.bodies nh.1 fun h => if gone h then none else fc.bodies nh.1 h
    receipts :=
      update fc.receipts nh.1 fun h => if gone h then none else fc.receipts nh.1 h
    numbers := fun h => if gone h then none else fc.numbers h }

/-- Wipes what has moved to the ancient store: the canonical data, then the side chains. -/
def wipe (fc : FastChain) (deleted : List (UInt64 × Hash)) : FastChain :=
  deleted.foldl deleteSides (deleted.foldl deleteCanonical fc)

/-- `truncateAncient`. -/
def truncateAncient (fc : FastChain) (head : UInt64) : FastChain :=
  if fc.ancients.length ≤ head.toNat + 1 then fc
  else { fc with ancients := fc.ancients.take (head.toNat + 1) }

variable [HashFns]

/-- `WriteAncientBlock`; an append out of order stops the node. -/
def writeAncientBlock (fc : FastChain) (block : Block) (receipts : List Receipt)
    (td : Option Nat) : Option FastChain :=
  if block.numberU64.toNat = fc.ancients.length then
    some { fc with ancients := fc.ancients ++ [⟨block.hash, block, receipts, td⟩] }
  else none

/-- Moves the head of the fast synchronisation if the block is better. A missing total
difficulty stops the node. -/
def updateHead (fc : FastChain) (head : Block) : Option (FastChain × Bool) :=
  if fc.currentHeader.number ≥ head.header.number then do
    let current ← fc.getTd fc.currentFastBlock.hash fc.currentFastBlock.numberU64
    let td ← fc.getTd head.hash head.numberU64
    if current < td then
      some ({ fc with headFastBlockHash := head.hash, currentFastBlock := head }, true)
    else some (fc, false)
  else some (fc, false)

/-! ## The ancient store -/

/-- The chain with the numbers to wipe and the lookup entries that are not yet flushed. -/
structure AncientBatch where
  chain : FastChain
  deleted : List (UInt64 × Hash)
  lookups : List Block

/-- Wipes in the middle of a migration, together with the batch. The list is not emptied: the
source slices it from 0. -/
def AncientBatch.flush (s : AncientBatch) : AncientBatch :=
  if 100000 < s.deleted.length then
    ⟨(s.lookups.foldl writeTxLookupEntries s.chain).wipe s.deleted, s.deleted, []⟩
  else s

/-- The next block of the live database moves to the ancient store; a missing one stops the
node. -/
def AncientBatch.migrateOne (s : AncientBatch) : Option AncientBatch := do
  let frozen := UInt64.ofNat s.chain.ancients.length
  let h ← s.chain.readCanonicalHash frozen
  let b ← s.chain.readBlock h frozen
  let fc ← s.chain.writeAncientBlock b (s.chain.readReceipts h frozen) (s.chain.getTd h frozen)
  let deleted := if b.numberU64 ≠ 0 then s.deleted ++ [(b.numberU64, b.hash)] else s.deleted
  some (AncientBatch.flush ⟨fc, deleted, s.lookups⟩)

def AncientBatch.migrate : Nat → AncientBatch → Option AncientBatch
  | 0, s => some s
  | n + 1, s => do
      let s ← s.migrateOne
      migrate n s

/-- The body of the loop of `writeAncient`. -/
def AncientBatch.write (s : AncientBatch) (block : Block) (receipts : List Receipt) :
    Option AncientBatch := do
  let s ← s.migrate (block.numberU64.toNat - s.chain.ancients.length)
  let fc ← s.chain.writeAncientBlock block receipts (s.chain.getTd block.hash block.numberU64)
  some { s with chain := fc, lookups := s.lookups ++ [block] }

/-- The loop of `writeAncient`, with the chain to roll back where it stops with an error. -/
def writeAncients (interrupt : Block → Bool) : Nat → AncientBatch → List (Block × List Receipt) →
    Option (AncientBatch × Option (Nat × FastError))
  | _, s, [] => some (s, none)
  | i, s, (block, receipts) :: rest =>
      if interrupt block then some (s, some (0, .interrupted))
      else if !s.chain.hasHeader block.hash block.numberU64 then
        some (s, some (i, .unknownHeader))
      else do
        let s ← s.write block receipts
        writeAncients interrupt (i + 1) s rest

def writeAncient (interrupt : Block → Bool) (fc : FastChain) (chain : List (Block × List Receipt))
    (last : Block) : Option (FastChain × Option (Nat × FastError)) := do
  let previous := fc.currentFastBlock.numberU64
  let (s, err) ← writeAncients interrupt 0 ⟨fc, [], []⟩ chain
  match err with
  | some err => some (s.chain.truncateAncient previous, some err)
  | none =>
    let (fc, better) ← (s.lookups.foldl writeTxLookupEntries s.chain).updateHead last
    if better then
      let moved := (chain.map Prod.fst).filter fun b => b.numberU64 ≠ 0
      some (fc.wipe (s.deleted ++ moved.map fun b => (b.numberU64, b.hash)), none)
    else some (fc.truncateAncient previous, some (0, .sideBlocks))

/-! ## The live database -/

def writeBodies (fc : FastChain) (p : Block × List Receipt) : FastChain :=
  let n := p.1.numberU64
  let h := p.1.hash
  let body := some (p.1.transactions, p.1.uncles)
  { fc with
    bodies := update fc.bodies n (update (fc.bodies n) h body)
    receipts := update fc.receipts n (update (fc.receipts n) h (some p.2)) }

def flushLive (fc : FastChain) (batch : List (Block × List Receipt)) : FastChain :=
  batch.foldl (fun fc p => (fc.writeBodies p).writeTxLookupEntries p.1) fc

/-- The loop of `writeLive`: the batch is flushed once it is full (`full`), and lost where the
loop stops with an error. -/
def writeLives (interrupt : Block → Bool) (full : List (Block × List Receipt) → Bool) :
    Nat → FastChain → List (Block × List Receipt) → List (Block × List Receipt) →
    FastChain × Option (Nat × FastError)
  | _, fc, batch, [] => (fc.flushLive batch, none)
  | i, fc, batch, p :: rest =>
      if interrupt p.1 then (fc, some (0, .interrupted))
      else if !fc.hasHeader p.1.hash p.1.numberU64 then (fc, some (i, .unknownHeader))
      else if fc.hasBlock p.1.hash p.1.numberU64 then
        writeLives interrupt full (i + 1) fc batch rest
      else
        let batch := batch ++ [p]
        if full batch then writeLives interrupt full (i + 1) (fc.flushLive batch) [] rest
        else writeLives interrupt full (i + 1) fc batch rest

def writeLive (interrupt : Block → Bool) (full : List (Block × List Receipt) → Bool)
    (fc : FastChain) (chain : List (Block × List Receipt)) (last : Block) :
    Option (FastChain × Option (Nat × FastError)) :=
  match writeLives interrupt full 0 fc [] chain with
  | (fc, some err) => some (fc, some err)
  | (fc, none) => (fc.updateHead last).map fun r => (r.1, none)

/-! ## Synchronisation -/

def contiguous : List Block → Bool
  | a :: b :: rest =>
      b.numberU64 = a.numberU64 + 1 && b.parentHash = a.hash && contiguous (b :: rest)
  | _ => true

/-- A part of `InsertReceiptChain`, if there is anything for it to do. -/
def onLast (chain : List (Block × List Receipt)) (fc : FastChain)
    (write : Block → Option (FastChain × Option (Nat × FastError))) :
    Option (FastChain × Option (Nat × FastError)) :=
  match chain.getLast? with
  | none => some (fc, none)
  | some last => write last.1

/-- An interruption is no error to the caller. -/
def returned : Nat × FastError → Nat × Option FastError
  | (_, .interrupted) => (0, none)
  | (i, e) => (i, some e)

/-- `InsertReceiptChain`; `none` where the node stops. -/
def insertReceiptChain (interrupt : Block → Bool) (full : List (Block × List Receipt) → Bool)
    (fc : FastChain) (chain : List (Block × List Receipt)) (ancientLimit : UInt64) :
    Option (FastChain × Nat × Option FastError) :=
  if !contiguous (chain.map Prod.fst) then some (fc, 0, some .nonContiguous)
  else do
    let ancients := chain.filter fun p => p.1.numberU64 ≤ ancientLimit
    let lives := chain.filter fun p => ¬ p.1.numberU64 ≤ ancientLimit
    let (fc, err) ← onLast ancients fc (fc.writeAncient interrupt ancients)
    match err with
    | some err => some (fc, returned err)
    | none =>
      let (fc, err) ← onLast lives fc (fc.writeLive interrupt full lives)
      match err with
      | some err => some (fc, returned err)
      | none => if chain = [] then none else some (fc, 0, none)

/-- The calls of a synchronisation, each with its limit, none of which fails. -/
def insertReceiptChains (interrupt : Block → Bool) (full : List (Block × List Receipt) → Bool) :
    FastChain → List (List (Block × List Receipt) × UInt64) → Option FastChain
  | fc, [] => some fc
  | fc, (chain, limit) :: rest =>
      match fc.insertReceiptChain interrupt full chain limit with
      | some (fc, _, none) => insertReceiptChains interrupt full fc rest
      | _ => none

def fastSyncCommitHead (fc : FastChain) (hash : Hash) : Except FastError FastChain :=
  match (fc.numbers hash).bind (fc.readBlock hash) with
  | none => .error .nonExistentBlock
  | some block =>
    if (fc.states block.header.root).isNone then .error .missingState
    else .ok { fc with currentBlock := block }

/-! ## The commitment database -/

section Frame

variable {fc fc' : FastChain} {chain : List (Block × List Receipt)} {interrupt : Block → Bool}
  {full : List (Block × List Receipt) → Bool}

omit [HashFns] in
theorem cmdb_foldl {α : Type} (f : FastChain → α → FastChain)
    (hf : ∀ fc a, (f fc a).cmdb = fc.cmdb) (as : List α) (fc : FastChain) :
    (as.foldl f fc).cmdb = fc.cmdb := by
  induction as generalizing fc with
  | nil => rfl
  | cons a as ih => rw [List.foldl_cons, ih, hf]

omit [HashFns] in
theorem cmdb_wipe (fc : FastChain) (deleted : List (UInt64 × Hash)) :
    (fc.wipe deleted).cmdb = fc.cmdb := by
  rw [wipe, cmdb_foldl deleteSides fun _ _ => rfl, cmdb_foldl deleteCanonical fun _ _ => rfl]

omit [HashFns] in
theorem cmdb_truncateAncient (fc : FastChain) (head : UInt64) :
    (fc.truncateAncient head).cmdb = fc.cmdb := by
  unfold truncateAncient
  split <;> rfl

theorem cmdb_writeAncientBlock {block : Block} {receipts : List Receipt} {td : Option Nat}
    (h : fc.writeAncientBlock block receipts td = some fc') : fc'.cmdb = fc.cmdb := by
  unfold writeAncientBlock at h
  split at h
  · cases h
    rfl
  · cases h

theorem cmdb_updateHead {head : Block} {better : Bool}
    (h : fc.updateHead head = some (fc', better)) :
    fc'.cmdb = fc.cmdb := by
  unfold updateHead at h
  split at h
  · obtain ⟨current, -, h⟩ := bind_eq_some_iff.mp h
    obtain ⟨td, -, h⟩ := bind_eq_some_iff.mp h
    split at h <;> cases h <;> rfl
  · cases h
    rfl

namespace AncientBatch

variable {s s' : AncientBatch}

theorem cmdb_flush (s : AncientBatch) : s.flush.chain.cmdb = s.chain.cmdb := by
  unfold flush
  split
  · rw [cmdb_wipe, cmdb_foldl writeTxLookupEntries fun _ _ => rfl]
  · rfl

theorem cmdb_migrateOne (h : s.migrateOne = some s') : s'.chain.cmdb = s.chain.cmdb := by
  obtain ⟨hash, -, h⟩ := bind_eq_some_iff.mp h
  obtain ⟨b, -, h⟩ := bind_eq_some_iff.mp h
  obtain ⟨fc, hfc, h⟩ := bind_eq_some_iff.mp h
  cases h
  rw [cmdb_flush, ← cmdb_writeAncientBlock hfc]

theorem cmdb_migrate (n : Nat) (h : s.migrate n = some s') : s'.chain.cmdb = s.chain.cmdb := by
  induction n generalizing s with
  | zero =>
    cases h
    rfl
  | succ n ih =>
    obtain ⟨s1, h1, h⟩ := bind_eq_some_iff.mp h
    rw [ih h, cmdb_migrateOne h1]

theorem cmdb_write {block : Block} {receipts : List Receipt}
    (h : s.write block receipts = some s') : s'.chain.cmdb = s.chain.cmdb := by
  obtain ⟨s1, h1, h⟩ := bind_eq_some_iff.mp h
  obtain ⟨fc, hfc, h⟩ := bind_eq_some_iff.mp h
  cases h
  rw [cmdb_writeAncientBlock hfc, cmdb_migrate _ h1]

end AncientBatch

variable {err : Option (Nat × FastError)}

theorem cmdb_writeAncients {i : Nat} {s s' : AncientBatch}
    (h : writeAncients interrupt i s chain = some (s', err)) : s'.chain.cmdb = s.chain.cmdb := by
  induction chain generalizing i s with
  | nil =>
    cases h
    rfl
  | cons p rest ih =>
    rw [writeAncients] at h
    split at h
    · cases h
      rfl
    · split at h
      · cases h
        rfl
      · obtain ⟨s1, h1, h⟩ := bind_eq_some_iff.mp h
        rw [ih h, AncientBatch.cmdb_write h1]

theorem cmdb_writeAncient {last : Block}
    (h : fc.writeAncient interrupt chain last = some (fc', err)) : fc'.cmdb = fc.cmdb := by
  obtain ⟨⟨s, err1⟩, h1, h⟩ := bind_eq_some_iff.mp h
  have hs : s.chain.cmdb = fc.cmdb := cmdb_writeAncients h1
  cases err1 with
  | some e =>
    cases h
    rw [cmdb_truncateAncient, hs]
  | none =>
    obtain ⟨⟨fc2, better⟩, h2, h⟩ := bind_eq_some_iff.mp h
    have hfc2 : fc2.cmdb = fc.cmdb := by
      rw [cmdb_updateHead h2, cmdb_foldl writeTxLookupEntries fun _ _ => rfl, hs]
    cases better with
    | true =>
      cases h
      rw [cmdb_wipe, hfc2]
    | false =>
      cases h
      rw [cmdb_truncateAncient, hfc2]

theorem cmdb_writeLives (interrupt : Block → Bool) (full : List (Block × List Receipt) → Bool)
    (i : Nat) (fc : FastChain) (batch chain : List (Block × List Receipt)) :
    (writeLives interrupt full i fc batch chain).1.cmdb = fc.cmdb := by
  have hflush : ∀ (fc : FastChain) batch, (fc.flushLive batch).cmdb = fc.cmdb := by
    intro fc batch
    rw [flushLive, cmdb_foldl _ fun _ _ => by rfl]
  induction chain generalizing i fc batch with
  | nil => exact hflush fc batch
  | cons p rest ih =>
    rw [writeLives]
    split
    · rfl
    · split
      · rfl
      · split
        · exact ih _ _ _
        · dsimp only
          split
          · rw [ih, hflush]
          · exact ih _ _ _

theorem cmdb_writeLive {last : Block} (h : fc.writeLive interrupt full chain last = some (fc', err))
    : fc'.cmdb = fc.cmdb := by
  unfold writeLive at h
  have hlives := cmdb_writeLives interrupt full 0 fc [] chain
  split at h
  case h_1 fc1 e heq =>
    rw [heq] at hlives
    cases h
    exact hlives
  case h_2 fc1 heq =>
    rw [heq] at hlives
    obtain ⟨⟨fc2, better⟩, h2, h⟩ := map_eq_some_iff.mp h
    cases h
    rw [← hlives]
    exact cmdb_updateHead h2

omit [HashFns] in
theorem cmdb_onLast {write : Block → Option (FastChain × Option (Nat × FastError))}
    (hwrite : ∀ last err fc', write last = some (fc', err) → fc'.cmdb = fc.cmdb)
    (h : onLast chain fc write = some (fc', err)) : fc'.cmdb = fc.cmdb := by
  unfold onLast at h
  split at h
  · cases h
    rfl
  · exact hwrite _ _ _ h

theorem cmdb_insertReceiptChain {limit : UInt64} {r : Nat × Option FastError}
    (h : fc.insertReceiptChain interrupt full chain limit = some (fc', r)) :
    fc'.cmdb = fc.cmdb := by
  unfold insertReceiptChain at h
  split at h
  · cases h
    rfl
  · obtain ⟨⟨fc1, err1⟩, h1, h⟩ := bind_eq_some_iff.mp h
    have hfc1 := cmdb_onLast (fun _ _ _ => cmdb_writeAncient) h1
    cases err1 with
    | some e =>
      cases h
      exact hfc1
    | none =>
      obtain ⟨⟨fc2, err2⟩, h2, h⟩ := bind_eq_some_iff.mp h
      have hfc2 := cmdb_onLast (fun _ _ _ => cmdb_writeLive) h2
      cases err2 with
      | some e =>
        cases h
        rw [hfc2, hfc1]
      | none =>
        dsimp only at h
        split at h
        · cases h
        · cases h
          rw [hfc2, hfc1]

theorem cmdb_insertReceiptChains (parts : List (List (Block × List Receipt) × UInt64))
    (h : fc.insertReceiptChains interrupt full parts = some fc') : fc'.cmdb = fc.cmdb := by
  induction parts generalizing fc with
  | nil =>
    cases h
    rfl
  | cons p rest ih =>
    rw [insertReceiptChains] at h
    split at h
    case h_1 fc1 n heq => rw [ih h, cmdb_insertReceiptChain heq]
    case h_2 => cases h

omit [HashFns] in
theorem cmdb_fastSyncCommitHead {hash : Hash} (h : fc.fastSyncCommitHead hash = .ok fc') :
    fc'.cmdb = fc.cmdb := by
  unfold fastSyncCommitHead at h
  split at h
  · cases h
  · split at h
    · cases h
    · cases h
      rfl

end Frame

end FastChain

end GethComments
