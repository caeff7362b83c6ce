import GethComments.Core.BlockChain
import GethComments.Lib.Run

/-!
# The commitment database along a chain's history

Runs of block writes and rollbacks from a genesis block. The commitment database
is folded over every block that is written, in the order of writing; `reorg` and
`Rollback` do not touch it.

* `cmdb_writeBlockWithState`, `sameStore_rollback`: the step lemmas;
* `cmdb_run`: a whole run;
* `linear_step`: while every block extends the head, the written blocks are the
  canonical ones.
-/

namespace GethComments

open Option

namespace BlockChain

variable [HashFns]

/-! ## Frame lemmas -/

theorem fields_writeHeadBlock (bc : BlockChain) (b : Block) :
    (bc.writeHeadBlock b).currentBlock = b ∧ (bc.writeHeadBlock b).blocks = bc.blocks ∧
      (bc.writeHeadBlock b).canonical = Function.update bc.canonical b.numberU64 (some b.hash) ∧
      (bc.writeHeadBlock b).cmdb = bc.cmdb ∧ (bc.writeHeadBlock b).tds = bc.tds := by
  unfold writeHeadBlock
  simp only [writeTxLookupEntries]
  split <;> exact ⟨rfl, rfl, rfl, rfl, rfl⟩

theorem kept_foldl_writeHeadBlock (bs : List Block) (bc : BlockChain) :
    (bs.foldl writeHeadBlock bc).cmdb = bc.cmdb ∧
      (bs.foldl writeHeadBlock bc).blocks = bc.blocks := by
  induction bs generalizing bc with
  | nil => exact ⟨rfl, rfl⟩
  | cons b bs ih =>
    obtain ⟨-, hblocks, -, hcmdb, -⟩ := fields_writeHeadBlock bc b
    obtain ⟨hcmdb', hblocks'⟩ := ih (bc.writeHeadBlock b)
    exact ⟨hcmdb'.trans hcmdb, hblocks'.trans hblocks⟩

variable {bc bc' : BlockChain} {hash : Hash} {b : Block}

theorem kept_reorg {old new : Block} (h : bc.reorg old new = .ok bc') :
    bc'.cmdb = bc.cmdb ∧ bc'.blocks = bc.blocks := by
  unfold reorg at h
  cases hc : bc.reorgChains old new with
  | error e =>
    rw [hc] at h
    cases h
  | ok chains =>
    rw [hc] at h
    cases h
    exact kept_foldl_writeHeadBlock _ bc

theorem kept_updateHead (bc : BlockChain) (externTd localTd : Nat) (b : Block) (coin : Bool) :
    (bc.updateHead externTd localTd b coin).1.cmdb = bc.cmdb ∧
      (bc.updateHead externTd localTd b coin).1.blocks = bc.blocks := by
  unfold updateHead
  split
  · split
    · cases h : bc.reorg bc.currentBlock b with
      | error e => exact ⟨rfl, rfl⟩
      | ok bc' =>
        obtain ⟨-, hblocks, -, hcmdb, -⟩ := fields_writeHeadBlock bc' b
        obtain ⟨hcmdb', hblocks'⟩ := kept_reorg h
        exact ⟨hcmdb.trans hcmdb', hblocks.trans hblocks'⟩
    · obtain ⟨-, hblocks, -, hcmdb, -⟩ := fields_writeHeadBlock bc b
      exact ⟨hcmdb, hblocks⟩
  · exact ⟨rfl, rfl⟩

/-- The block's parent is known, so that the block is written. -/
def Writes (bc : BlockChain) (w : BlockWrite) : Prop :=
  (bc.getTd w.block.parentHash (w.block.numberU64 - 1)).isSome

instance (bc : BlockChain) (w : BlockWrite) : Decidable (bc.Writes w) :=
  inferInstanceAs (Decidable (_ = _))

/-- A written block adds its commitments, whether or not it becomes canonical. -/
theorem cmdb_writeBlockWithState (bc : BlockChain) (w : BlockWrite) :
    (bc.writeBlockWithState w).1.cmdb =
      if bc.Writes w then RawDB.writeAllCM bc.cmdb w.block else bc.cmdb := by
  cases htd : bc.getTd w.block.parentHash (w.block.numberU64 - 1) with
  | none => simp [writeBlockWithState, Writes, htd]
  | some ptd =>
    have hw : bc.Writes w := by simp [Writes, htd]
    rw [if_pos hw]
    simp only [writeBlockWithState, htd]
    cases w.commit with
    | none => rfl
    | some root => exact (kept_updateHead _ _ _ _ _).1

theorem blocks_storeBlock (bc : BlockChain) (b : Block) (td : Nat) (n : UInt64) (h : Hash) :
    (bc.storeBlock b td).blocks n h =
      if n = b.numberU64 ∧ h = b.hash then some b else bc.blocks n h := by
  simp only [storeBlock, writeBlock, Function.update_apply]
  grind

theorem blocks_writeBlockWithState {w : BlockWrite} {n : UInt64}
    (hb : (bc.writeBlockWithState w).1.blocks n hash = some b) :
    bc.Writes w ∧ n = w.block.numberU64 ∧ b = w.block ∨ bc.blocks n hash = some b := by
  cases htd : bc.getTd w.block.parentHash (w.block.numberU64 - 1) with
  | none =>
    rw [writeBlockWithState, htd] at hb
    exact Or.inr hb
  | some ptd =>
    have hw : bc.Writes w := by simp [Writes, htd]
    have hstore : (bc.writeBlockWithState w).1.blocks =
        (bc.storeBlock w.block (w.block.difficulty + ptd)).blocks := by
      simp only [writeBlockWithState, htd]
      cases w.commit with
      | none => rfl
      | some root => exact (kept_updateHead _ _ _ _ _).2
    rw [hstore, blocks_storeBlock] at hb
    split at hb
    case isTrue hk => exact Or.inl ⟨hw, hk.1, (some.inj hb).symm⟩
    case isFalse => exact Or.inr hb

/-- Nothing but the head markers differs. -/
structure SameStore (bc bc' : BlockChain) : Prop where
  cmdb : bc'.cmdb = bc.cmdb
  blocks : bc'.blocks = bc.blocks
  canonical : bc'.canonical = bc.canonical

omit [HashFns] in
theorem SameStore.trans {bc1 bc2 bc3 : BlockChain} (h : SameStore bc1 bc2)
    (h' : SameStore bc2 bc3) : SameStore bc1 bc3 :=
  ⟨h'.cmdb.trans h.cmdb, h'.blocks.trans h.blocks, h'.canonical.trans h.canonical⟩

theorem sameStore_degradeHeader (h : bc.degradeHeader hash = some bc') :
    SameStore bc bc' ∧ bc'.currentBlock = bc.currentBlock := by
  unfold degradeHeader at h
  split at h
  · obtain ⟨_, -, rfl⟩ := map_eq_some_iff.mp h
    exact ⟨⟨rfl, rfl, rfl⟩, rfl⟩
  · cases h
    exact ⟨⟨rfl, rfl, rfl⟩, rfl⟩

theorem sameStore_degradeFastBlock (h : bc.degradeFastBlock hash = some bc') :
    SameStore bc bc' ∧ bc'.currentBlock = bc.currentBlock := by
  unfold degradeFastBlock at h
  split at h
  · obtain ⟨_, -, rfl⟩ := map_eq_some_iff.mp h
    exact ⟨⟨rfl, rfl, rfl⟩, rfl⟩
  · cases h
    exact ⟨⟨rfl, rfl, rfl⟩, rfl⟩

theorem sameStore_degradeBlock (h : bc.degradeBlock hash = some bc') :
    SameStore bc bc' ∧ (bc.currentBlock.hash ≠ hash → bc'.currentBlock = bc.currentBlock) := by
  unfold degradeBlock at h
  split at h
  case isTrue heq =>
    obtain ⟨_, -, rfl⟩ := map_eq_some_iff.mp h
    exact ⟨⟨rfl, rfl, rfl⟩, fun hne => absurd heq hne⟩
  case isFalse =>
    cases h
    exact ⟨⟨rfl, rfl, rfl⟩, fun _ => rfl⟩

theorem sameStore_rollbackOne (h : bc.rollbackOne hash = some bc') :
    SameStore bc bc' ∧ (bc.currentBlock.hash ≠ hash → bc'.currentBlock = bc.currentBlock) := by
  simp only [rollbackOne, bind_eq_bind, bind_eq_some_iff] at h
  obtain ⟨bc1, h1, bc2, h2, h3⟩ := h
  obtain ⟨s1, c1⟩ := sameStore_degradeHeader h1
  obtain ⟨s2, c2⟩ := sameStore_degradeFastBlock h2
  obtain ⟨s3, c3⟩ := sameStore_degradeBlock h3
  refine ⟨(s1.trans s2).trans s3, fun hne => ?_⟩
  rw [← c1, ← c2] at hne ⊢
  exact c3 hne

theorem sameStore_rollback {chain : List Hash} (h : bc.rollback chain = some bc') :
    SameStore bc bc' :=
  Run.foldlM_invariant (P := SameStore bc) chain.reverse
    (fun _ _ _ _ hs hstep => hs.trans (sameStore_rollbackOne hstep).1) ⟨rfl, rfl, rfl⟩ h

theorem currentBlock_rollback {chain : List Hash} (h : bc.rollback chain = some bc')
    (hne : bc.currentBlock.hash ∉ chain) :
    bc'.currentBlock = bc.currentBlock := by
  refine Run.foldlM_invariant (P := fun s => s.currentBlock = bc.currentBlock) chain.reverse
    (fun s s' x hx hs hstep => ?_) rfl h
  have hx' : s.currentBlock.hash ≠ x := by
    rintro rfl
    rw [hs] at hx
    exact hne (List.mem_reverse.mp hx)
  exact ((sameStore_rollbackOne hstep).2 hx').trans hs

/-! ## Runs -/

inductive ChainOp where
  | write (w : BlockWrite)
  | rollback (chain : List Hash)

/-- One operation. A rollback that stops the node has not written its batch, so the
chain is found again as it was. -/
def chainStep (bc : BlockChain) : ChainOp → BlockChain
  | .write w => (bc.writeBlockWithState w).1
  | .rollback chain => (bc.rollback chain).getD bc

def written (bc : BlockChain) : ChainOp → List Block
  | .write w => if bc.Writes w then [w.block] else []
  | .rollback _ => []

/-- The blocks written along a run, in order. -/
def writtenAlong (bc : BlockChain) : List ChainOp → List Block
  | [] => []
  | op :: ops => bc.written op ++ (bc.chainStep op).writtenAlong ops

theorem cmdb_chainStep (bc : BlockChain) (op : ChainOp) :
    (bc.chainStep op).cmdb = (bc.written op).foldl RawDB.writeAllCM bc.cmdb := by
  cases op with
  | write w =>
    rw [chainStep, cmdb_writeBlockWithState, written]
    split <;> rfl
  | rollback chain =>
    simp only [chainStep, written, List.foldl_nil]
    cases h : bc.rollback chain with
    | none => rfl
    | some bc' => exact (sameStore_rollback h).cmdb

theorem cmdb_run (ops : List ChainOp) (bc : BlockChain) :
    (ops.foldl chainStep bc).cmdb = (bc.writtenAlong ops).foldl RawDB.writeAllCM bc.cmdb := by
  induction ops generalizing bc with
  | nil => rfl
  | cons op ops ih => rw [List.foldl_cons, ih, writtenAlong, List.foldl_append, cmdb_chainStep]

/-! ## Runs that only extend the head -/

/-- The blocks of the canonical index from number 0 to the head's. -/
def canonicalChain (bc : BlockChain) : List Block :=
  (List.range (bc.currentBlock.header.number + 1)).filterMap fun i =>
    (bc.canonical (UInt64.ofNat i)).bind fun hash => bc.getBlock hash (UInt64.ofNat i)

/-- A written block is the child of the head, of positive difficulty, and its state is
committed; a rollback leaves the head alone. -/
def ExtendsHead (bc : BlockChain) : ChainOp → Prop
  | .write w => bc.Writes w →
      w.block.parentHash = bc.currentBlock.hash ∧
      w.block.header.number = bc.currentBlock.header.number + 1 ∧
      w.block.header.number < 2 ^ 64 ∧ 0 < w.block.difficulty ∧ w.commit.isSome
  | .rollback chain => bc.currentBlock.hash ∉ chain

/-- The canonical index follows the head and the commitments are those of the
canonical blocks. -/
structure Linear (bc : BlockChain) : Prop where
  number : bc.currentBlock.header.number < 2 ^ 64
  cmdb : bc.cmdb = bc.canonicalChain.foldl RawDB.writeAllCM RawDB.emptyCMdb

theorem canonicalChain_of_next (hnum : b.header.number = bc.currentBlock.header.number + 1)
    (hlt : b.header.number < 2 ^ 64) (hhead : bc'.currentBlock = b)
    (hcan : bc'.canonical = Function.update bc.canonical b.numberU64 (some b.hash))
    (hblocks : bc'.blocks = Function.update bc.blocks b.numberU64
      (Function.update (bc.blocks b.numberU64) b.hash (some b))) :
    bc'.canonicalChain = bc.canonicalChain ++ [b] := by
  have hlast : UInt64.ofNat b.header.number = b.numberU64 := rfl
  have hold : ∀ i ∈ List.range b.header.number, UInt64.ofNat i ≠ b.numberU64 := by
    intro i hi h
    have hi' := List.mem_range.mp hi
    rw [← hlast, UInt64.ofNat_eq_iff_mod_eq_toNat, UInt64.toNat_ofNat'] at h
    omega
  unfold canonicalChain
  rw [hhead, List.range_succ, List.filterMap_append, hnum]
  congr 1
  · apply List.filterMap_congr
    intro i hi
    rw [← hnum] at hi
    simp only [getBlock, hcan, hblocks, Function.update_of_ne (hold i hi)]
  · rw [← hnum]
    simp [hlast, getBlock, hcan, hblocks]

theorem updateHead_of_child {externTd localTd : Nat} {coin : Bool} (htd : localTd < externTd)
    (hpar : b.parentHash = bc.currentBlock.hash) :
    (bc.updateHead externTd localTd b coin).1 = (bc.writeHeadBlock b).removeFutureBlock b.hash := by
  have hre : bc.shouldReorg externTd localTd b coin = true := by simp [shouldReorg, htd]
  simp [updateHead, hre, hpar]

omit [HashFns] in
theorem numberU64_sub_one {p : Block} (h : b.header.number = p.header.number + 1) :
    b.numberU64 - 1 = p.numberU64 := by
  unfold Block.numberU64
  rw [h, UInt64.ofNat_add]
  exact UInt64.add_sub_cancel _ _

theorem linear_write {w : BlockWrite} (hl : bc.Linear) (hx : bc.ExtendsHead (.write w)) :
    (bc.writeBlockWithState w).1.Linear := by
  cases htd : bc.getTd w.block.parentHash (w.block.numberU64 - 1) with
  | none =>
    simp only [writeBlockWithState, htd]
    exact hl
  | some ptd =>
    have hw : bc.Writes w := by simp [Writes, htd]
    obtain ⟨hpar, hnum, hlt, hdiff, hcommit⟩ := hx hw
    obtain ⟨root, hroot⟩ := isSome_iff_exists.mp hcommit
    have hlocal : (bc.getTd bc.currentBlock.hash bc.currentBlock.numberU64).getD 0 = ptd := by
      rw [← hpar, ← numberU64_sub_one hnum, htd]
      rfl
    have hcm := cmdb_writeBlockWithState bc w
    rw [if_pos hw] at hcm
    simp only [writeBlockWithState, htd, hroot, hlocal] at hcm ⊢
    generalize hbc1 : (bc.storeBlock w.block (w.block.difficulty + ptd)).commitState root w.state
      w.pruned = bc1 at hcm ⊢
    have hpar1 : w.block.parentHash = bc1.currentBlock.hash := by
      rw [← hbc1]
      exact hpar
    rw [updateHead_of_child (by omega) hpar1] at hcm ⊢
    obtain ⟨hcur, hblocks, hcan, -⟩ := fields_writeHeadBlock bc1 w.block
    have hchain : ((bc1.writeHeadBlock w.block).removeFutureBlock w.block.hash).canonicalChain =
        bc.canonicalChain ++ [w.block] := by
      rw [← hbc1] at hcur hblocks hcan ⊢
      exact canonicalChain_of_next hnum hlt hcur hcan hblocks
    refine ⟨?_, ?_⟩
    · exact lt_of_eq_of_lt (congrArg (fun b : Block => b.header.number) hcur) hlt
    · rw [hcm, hchain, List.foldl_append, ← hl.cmdb]
      rfl

theorem linear_step {op : ChainOp} (hl : bc.Linear) (hx : bc.ExtendsHead op) :
    (bc.chainStep op).Linear := by
  cases op with
  | write w => exact linear_write hl hx
  | rollback chain =>
    rw [chainStep]
    cases h : bc.rollback chain with
    | none => exact hl
    | some bc' =>
      have hcur := currentBlock_rollback h hx
      obtain ⟨hcmdb, hblocks, hcan⟩ := sameStore_rollback h
      have hchain : bc'.canonicalChain = bc.canonicalChain := by
        simp [canonicalChain, getBlock, hcur, hblocks, hcan]
      refine ⟨?_, ?_⟩
      · rw [getD_some, hcur]
        exact hl.number
      · rw [getD_some, hcmdb, hchain]
        exact hl.cmdb

/-! ## From the genesis block -/

/-- A chain that holds its genesis block only. -/
def genesisChain (g : Block) (st : StateDB) (preserve : Option (Block → Bool)) : BlockChain where
  cmdb := RawDB.emptyCMdb
  blocks := fun n h => if n = g.numberU64 ∧ h = g.hash then some g else none
  tds := fun n h => if n = g.numberU64 ∧ h = g.hash then some g.difficulty else none
  canonical := fun n => if n = g.numberU64 then some g.hash else none
  txLookup := fun _ => none
  states := fun root => if root = g.header.root then some st else none
  headBlockHash := g.hash
  headHeaderHash := g.hash
  headFastBlockHash := g.hash
  currentBlock := g
  currentHeader := g.header
  currentFastBlock := g
  shouldPreserve := preserve
  futureBlocks := []

theorem linear_genesisChain {g : Block} (hnum : g.header.number = 0) (htxs : g.transactions = [])
    (st : StateDB) (preserve : Option (Block → Bool)) : (genesisChain g st preserve).Linear := by
  have hchain : (genesisChain g st preserve).canonicalChain = [g] := by
    have h0 : g.numberU64 = 0 := by simp [Block.numberU64, hnum]
    simp [canonicalChain, genesisChain, getBlock, hnum, h0]
  refine ⟨by simp [genesisChain, hnum], ?_⟩
  rw [hchain]
  simp [genesisChain, RawDB.writeAllCM, htxs]

/-- **What the commitment database reflects.** After any sequence of block writes and
rollbacks from a genesis block without transactions, it is the fold of `WriteAllCM`
over all blocks written, in the order of writing. It is the fold over the canonical
chain as long as every written block has extended the head and no rollback has
removed the head. -/
theorem cmdb_history (g : Block) (hnum : g.header.number = 0) (htxs : g.transactions = [])
    (st : StateDB) (preserve : Option (Block → Bool)) (ops : List ChainOp) :
    (ops.foldl chainStep (genesisChain g st preserve)).cmdb =
        ((genesisChain g st preserve).writtenAlong ops).foldl RawDB.writeAllCM RawDB.emptyCMdb ∧
      (Run.Along chainStep ExtendsHead (genesisChain g st preserve) ops →
        (ops.foldl chainStep (genesisChain g st preserve)).cmdb =
          (ops.foldl chainStep (genesisChain g st preserve)).canonicalChain.foldl
            RawDB.writeAllCM RawDB.emptyCMdb) := by
  refine ⟨cmdb_run ops _, fun hx => ?_⟩
  have hl := Run.invariant (P := Linear) (fun _ _ hl hx => linear_step hl hx) ops _
    (linear_genesisChain hnum htxs st preserve) hx
  exact hl.cmdb

end BlockChain

namespace BlockChain

attribute [local instance] HashFns.plain

/-- A block with one purchase of the commitment `cm`. -/
def purchaseOn (parent : Block) (cm : Bytes) (difficulty : Nat) : Block where
  header := { (default : Header) with
    parentHash := parent.hash, number := parent.header.number + 1, difficulty := difficulty }
  transactions := [{ (default : Transaction) with id := 1, cmV := cm }]
  uncles := []

def purchaseBlock (cm : Bytes) (difficulty : Nat) : Block := purchaseOn default cm difficulty

def purchaseWrite (block : Block) : ChainOp := .write ⟨block, default, some [], false, []⟩

/-- Two blocks with purchases, and a rollback that leaves the head. -/
def purchaseRun : List ChainOp := [purchaseWrite (purchaseBlock [8] 2),
  purchaseWrite (purchaseOn (purchaseBlock [8] 2) [9] 2), .rollback [[1]]]

theorem cmdb_history_purchase :
    let bc := purchaseRun.foldl chainStep (genesisChain default default none)
    bc.currentBlock.header.number = 2 ∧
      bc.cmdb = bc.canonicalChain.foldl RawDB.writeAllCM RawDB.emptyCMdb :=
  ⟨by decide, (cmdb_history default rfl rfl default none purchaseRun).2
    ⟨fun _ => by decide, fun _ => by decide, by unfold ExtendsHead; decide, trivial⟩⟩

/-- A lighter block beside the head leaves its purchase in the database, while the
canonical chain does not know it. -/
theorem cmdb_not_canonical :
    let bc := [purchaseBlock [8] 2, purchaseBlock [9] 1].map purchaseWrite |>.foldl chainStep
      (genesisChain default default none)
    bc.cmdb (cmHash [9]) ≠
      bc.canonicalChain.foldl RawDB.writeAllCM RawDB.emptyCMdb (cmHash [9]) := by
  decide

end BlockChain

end GethComments
