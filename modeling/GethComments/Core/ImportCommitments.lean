import GethComments.Core.CommitmentRules
import GethComments.Core.InsertChain
import GethComments.Core.ChainCommitments
import GethComments.Crypto.ZkpBalance

/-!
# Block import and the commitment rules

Importing blocks never reads the commitment database: `insertChain` gives the same
verdict, and the same chain apart from that database, whatever it holds. The
commitments of the blocks it writes are folded into it.

* `writeBlockWithState_withCMdb`: the one step that writes commitments;
* `writeOnly_importLoop`, `writeOnly_insertChain`: the import as a whole.
-/

namespace GethComments

namespace BlockChain

def withCMdb (bc : BlockChain) (db : CMdb) : BlockChain := { bc with cmdb := db }

variable [HashFns]

theorem writeHeadBlock_withCMdb (bc : BlockChain) (db : CMdb) (b : Block) :
    (bc.withCMdb db).writeHeadBlock b = (bc.writeHeadBlock b).withCMdb db := by
  by_cases h : bc.canonical b.numberU64 = some b.hash <;>
    simp [writeHeadBlock, withCMdb, writeTxLookupEntries, h]

theorem foldl_writeHeadBlock_withCMdb (bs : List Block) (bc : BlockChain) (db : CMdb) :
    bs.foldl writeHeadBlock (bc.withCMdb db) = (bs.foldl writeHeadBlock bc).withCMdb db := by
  induction bs generalizing bc with
  | nil => rfl
  | cons b bs ih => rw [List.foldl_cons, List.foldl_cons, writeHeadBlock_withCMdb, ih]

omit [HashFns] in
theorem stepBack_withCMdb (n : Nat) (bc : BlockChain) (db : CMdb) (b : Block) :
    (bc.withCMdb db).stepBack n b = bc.stepBack n b := by
  induction n generalizing b with
  | zero => rfl
  | succ n ih =>
    simp only [stepBack, ih]
    rfl

theorem commonAncestor_withCMdb (n : Nat) (bc : BlockChain) (db : CMdb) (old new : Block) :
    (bc.withCMdb db).commonAncestor n old new = bc.commonAncestor n old new := by
  induction n generalizing old new with
  | zero =>
    unfold commonAncestor
    rfl
  | succ n ih =>
    unfold commonAncestor
    simp only [ih]
    rfl

section

variable (bc : BlockChain)

theorem reorgChains_withCMdb (db : CMdb) (old new : Block) :
    (bc.withCMdb db).reorgChains old new = bc.reorgChains old new := by
  unfold reorgChains
  simp only [stepBack_withCMdb, commonAncestor_withCMdb]

theorem reorg_withCMdb (db : CMdb) (old new : Block) :
    (bc.withCMdb db).reorg old new = (bc.reorg old new).map (withCMdb · db) := by
  unfold reorg
  rw [reorgChains_withCMdb]
  cases bc.reorgChains old new with
  | error e => rfl
  | ok chains =>
    change Except.ok _ = Except.ok _
    rw [foldl_writeHeadBlock_withCMdb]
    rfl

theorem updateHead_withCMdb (db : CMdb) (externTd localTd : Nat) (b : Block) (coin : Bool) :
    (bc.withCMdb db).updateHead externTd localTd b coin =
      ((bc.updateHead externTd localTd b coin).1.withCMdb db,
        (bc.updateHead externTd localTd b coin).2) := by
  have hcurrent : (bc.withCMdb db).currentBlock = bc.currentBlock := rfl
  have hshould : (bc.withCMdb db).shouldReorg externTd localTd b coin =
    bc.shouldReorg externTd localTd b coin := rfl
  unfold updateHead
  rw [hcurrent, hshould, reorg_withCMdb, writeHeadBlock_withCMdb]
  split
  · split
    · cases bc.reorg bc.currentBlock b with
      | error e => rfl
      | ok bc' =>
        simp only [Except.map, writeHeadBlock_withCMdb]
        rfl
    · rfl
  · rfl

theorem hasBlock_congr {bc bc' : BlockChain} (h : bc'.blocks = bc.blocks) (b : Block) :
    bc'.hasBlock b.hash b.numberU64 = bc.hasBlock b.hash b.numberU64 := by
  simp only [hasBlock, getBlock, h]

theorem hasBlock_writeBlock (b : Block) (td : Nat) {w : Block}
    (h : w = b ∨ bc.hasBlock w.hash w.numberU64 = true) :
    (bc.writeBlock b td).hasBlock w.hash w.numberU64 = true := by
  simp only [hasBlock, getBlock, writeBlock, Function.update_apply] at h ⊢
  rcases h with rfl | h
  · simp
  · split
    case isTrue hn =>
      rw [Function.update_apply]
      split
      · rfl
      · rwa [← hn]
    case isFalse => exact h

theorem hasBlock_writeBlockWithState (w : BlockWrite) {b : Block}
    (h : bc.hasBlock b.hash b.numberU64 = true ∨ b = w.block ∧
      (bc.getTd w.block.parentHash (w.block.numberU64 - 1)).isSome = true) :
    (bc.writeBlockWithState w).1.hasBlock b.hash b.numberU64 = true := by
  unfold writeBlockWithState
  cases htd : bc.getTd w.block.parentHash (w.block.numberU64 - 1) with
  | none => exact h.resolve_right fun h => by simp [htd] at h
  | some ptd =>
    have hstored := hasBlock_writeBlock bc w.block (w.block.difficulty + ptd)
      (h.symm.imp_left And.left)
    dsimp only
    cases w.commit with
    | none => exact hstored
    | some root =>
      rw [hasBlock_congr (kept_updateHead _ _ _ _ _).2]
      exact hstored

theorem writeBlockWithState_withCMdb (w : BlockWrite) :
    ∃ ws : List Block, (∀ b ∈ ws, (bc.writeBlockWithState w).1.hasBlock b.hash b.numberU64 = true) ∧
      ∀ db, (bc.withCMdb db).writeBlockWithState w =
      ((bc.writeBlockWithState w).1.withCMdb (ws.foldl RawDB.writeAllCM db),
        (bc.writeBlockWithState w).2) := by
  have hget : ∀ db, (bc.withCMdb db).getTd w.block.parentHash (w.block.numberU64 - 1) =
      bc.getTd w.block.parentHash (w.block.numberU64 - 1) := fun _ => rfl
  cases htd : bc.getTd w.block.parentHash (w.block.numberU64 - 1) with
  | none =>
    refine ⟨[], by simp, fun db => ?_⟩
    simp only [writeBlockWithState, hget, htd]
    rfl
  | some ptd =>
    have hself := hasBlock_writeBlockWithState bc w (Or.inr ⟨rfl, by rw [htd]; rfl⟩)
    refine ⟨[w.block], fun b hb => List.mem_singleton.mp hb ▸ hself, fun db => ?_⟩
    simp only [writeBlockWithState, hget, htd]
    cases w.commit with
    | none => rfl
    | some root =>
      exact updateHead_withCMdb
        ((bc.storeBlock w.block (w.block.difficulty + ptd)).commitState root w.state w.pruned)
        (RawDB.writeAllCM db w.block) _ _ _ _

theorem writeKnownBlock_withCMdb (db : CMdb) (b : Block) : (bc.withCMdb db).writeKnownBlock b =
      ((bc.writeKnownBlock b).1.withCMdb db, (bc.writeKnownBlock b).2) := by
  have hcurrent : (bc.withCMdb db).currentBlock = bc.currentBlock := rfl
  unfold writeKnownBlock
  rw [hcurrent, reorg_withCMdb, writeHeadBlock_withCMdb]
  split
  · cases bc.reorg bc.currentBlock b with
    | error e => rfl
    | ok bc' =>
      simp only [Except.map, writeHeadBlock_withCMdb]
  · rfl

theorem blocks_writeKnownBlock (b : Block) : (bc.writeKnownBlock b).1.blocks = bc.blocks := by
  unfold writeKnownBlock
  split
  · cases h : bc.reorg bc.currentBlock b with
    | error e => rfl
    | ok bc' => exact (fields_writeHeadBlock bc' b).2.1.trans (kept_reorg h).2
  · exact (fields_writeHeadBlock bc b).2.1

end

end BlockChain

/-! ## Import as a computation that only writes commitments -/

/-- The computation does not read the commitment database and only folds the
commitments of some blocks into it, which are stored. -/
abbrev CMWriteOnly [HashFns] {ρ : Type} (f : ImportM ρ) : Prop :=
  WriteOnly BlockChain.withCMdb RawDB.writeAllCM (fun bc b => bc.hasBlock b.hash b.numberU64 = true)
    f

namespace ImportEnv

variable [HashFns] (env : ImportEnv)

theorem writeOnly_writeKnownBlock (b : Block) :
    CMWriteOnly (liftChain (BlockChain.writeKnownBlock · b)) := by
  refine writeOnly_of_nil (fun bc w hw => ?_) fun bc db => ?_
  · exact (BlockChain.hasBlock_congr (bc.blocks_writeKnownBlock b) w).trans hw
  change ((bc.withCMdb db).writeKnownBlock b |>.2, (bc.withCMdb db).writeKnownBlock b |>.1) = _
  rw [bc.writeKnownBlock_withCMdb db b]
  rfl

theorem writeOnly_writeBlockWithState (w : BlockChain.BlockWrite) :
    CMWriteOnly (liftChain (BlockChain.writeBlockWithState · w)) := by
  intro bc
  obtain ⟨ws, hstored, hws⟩ := bc.writeBlockWithState_withCMdb w
  refine ⟨fun b hb => bc.hasBlock_writeBlockWithState w (Or.inl hb), ws, hstored, fun db => ?_⟩
  change ((bc.withCMdb db).writeBlockWithState w |>.2,
    (bc.withCMdb db).writeBlockWithState w |>.1) = _
  rw [hws db]
  rfl

theorem writeOnly_check (x : ImportItem) : CMWriteOnly (env.check x) := by
  unfold check
  split
  · exact writeOnly_pure _
  · exact writeOnly_observe fun _ _ => rfl

theorem writeOnly_skipKnown (localTd externTd i : Nat) (prev : Option Header) (b : Block)
    (e : Option ImportError) (rest : List ImportItem) :
    CMWriteOnly (env.skipKnown localTd externTd i prev b e rest) := by
  induction rest generalizing externTd i prev b e with
  | nil =>
    unfold skipKnown
    exact .ite (.ite (writeOnly_pure _) (writeOnly_pure _)) (writeOnly_pure _)
  | cons x rest ih =>
    unfold skipKnown
    refine .ite (.ite (writeOnly_pure _) ?_) (writeOnly_pure _)
    exact .bind (env.writeOnly_check x) fun e => ih _ _ _ _ _

theorem writeOnly_writeKnown (i : Nat) (prev : Option Header) (b : Block)
    (e : Option ImportError) (rest : List ImportItem) :
    CMWriteOnly (env.writeKnown i prev b e rest) := by
  induction rest generalizing i prev b e
  all_goals
    unfold writeKnown
    refine .ite (.bind (writeOnly_writeKnownBlock b) fun r => ?_) (writeOnly_pure _)
  case nil => cases r <;> exact writeOnly_pure _
  case cons x rest ih =>
    cases r with
    | some err => exact writeOnly_pure _
    | none => exact .bind (env.writeOnly_check x) fun e => ih _ _ _ _

theorem writeOnly_importBlock (prev : Option Header) (b : Block) :
    CMWriteOnly (env.importBlock prev b) := by
  unfold importBlock
  refine .bind (writeOnly_observe fun _ _ => rfl) fun parent => ?_
  cases parent with
  | none => exact writeOnly_pure _
  | some parent =>
    refine .bind (writeOnly_observe fun _ _ => rfl) fun st => ?_
    cases st with
    | none => exact writeOnly_pure _
    | some st =>
      refine .bind (writeOnly_observe fun _ _ => rfl) fun p => ?_
      cases p with
      | error e => exact writeOnly_pure _
      | ok p =>
        dsimp only
        cases env.validateState b p with
        | some e => exact writeOnly_pure _
        | none =>
          refine .bind (writeOnly_writeBlockWithState _) fun r => ?_
          cases r <;> exact writeOnly_pure _

theorem writeOnly_importOrAdopt (prev : Option Header) (b : Block) (e : Option ImportError) :
    CMWriteOnly (env.importOrAdopt prev b e) :=
  .ite (env.writeOnly_importBlock prev b)
    (.bind (writeOnly_writeKnownBlock b) fun _ => writeOnly_pure _)

theorem writeOnly_importLoop (i : Nat) (prev : Option Header) (b : Block)
    (e : Option ImportError) (rest : List ImportItem) :
    CMWriteOnly (env.importLoop i prev b e rest) := by
  induction rest generalizing i prev b e
  all_goals
    unfold importLoop
    refine .ite (.ite (writeOnly_pure _) (.ite (writeOnly_pure _) ?_)) (writeOnly_pure _)
    refine .bind (env.writeOnly_importOrAdopt prev b e) fun r => ?_
  case nil => cases r <;> exact writeOnly_pure _
  case cons x rest ih =>
    cases r with
    | some err => exact writeOnly_pure _
    | none => exact .bind (env.writeOnly_check x) fun e => ih _ _ _ _

theorem writeOnly_addFutureBlock (b : Block) : CMWriteOnly (env.addFutureBlock b) :=
  .ite (writeOnly_pure _)
    (.bind (writeOnly_modify (fun _ _ h => h) fun _ _ => rfl) fun _ => writeOnly_pure _)

theorem writeOnly_postpone (i : Nat) (b : Block) (e : Option ImportError)
    (rest : List ImportItem) : CMWriteOnly (env.postpone i b e rest) := by
  induction rest generalizing i b e
  all_goals
    unfold postpone
    refine .ite (.bind (env.writeOnly_addFutureBlock b) fun r => ?_) (writeOnly_pure _)
  case nil => cases r <;> exact writeOnly_pure _
  case cons x rest ih =>
    cases r with
    | some err => exact writeOnly_pure _
    | none => exact .bind (env.writeOnly_check x) fun e => ih _ _ _

theorem writeOnly_sideBlock (current : Block) (externTd : Option Nat) (b : Block) :
    CMWriteOnly (sideBlock current externTd b) := by
  unfold sideBlock
  refine .bind (writeOnly_observe fun _ _ => rfl) fun canonical => ?_
  refine .ite (.bind (writeOnly_observe fun _ _ => rfl) fun td => writeOnly_pure _) ?_
  refine .ite (writeOnly_pure _) ?_
  refine .bind (writeOnly_observe fun _ _ => rfl) fun parentTd => ?_
  refine .bind (writeOnly_modify (fun bc w hw => ?_) fun bc db => ?_) fun _ => writeOnly_pure _
  · split
    · exact hw
    · exact bc.hasBlock_writeBlock b _ (Or.inr hw)
  change (if bc.hasBlock b.hash b.numberU64 = true then _ else _) = _
  split <;> rfl

theorem writeOnly_sideLoop (current : Block) (externTd : Option Nat) (i : Nat)
    (prev : Option Header) (b : Block) (e : Option ImportError) (rest : List ImportItem) :
    CMWriteOnly (env.sideLoop current externTd i prev b e rest) := by
  induction rest generalizing externTd i prev b e
  all_goals
    unfold sideLoop
    refine .ite (.bind (writeOnly_sideBlock current externTd b) fun r => ?_) (writeOnly_pure _)
  case nil => cases r <;> exact writeOnly_pure _
  case cons x rest ih =>
    cases r with
    | error err => exact writeOnly_pure _
    | ok td => exact .bind (env.writeOnly_check x) fun e => ih _ _ _ _ _

omit [HashFns] in
theorem pathToState_withCMdb (n : Nat) (bc : BlockChain) (db : CMdb) (h : Option Header) :
    pathToState (bc.withCMdb db) n h = pathToState bc n h := by
  induction n generalizing h with
  | zero => cases h <;> rfl
  | succ n ih =>
    cases h with
    | none => rfl
    | some h =>
      simp only [pathToState, ih]
      rfl

section Segments

variable {importSegment : List Block → ImportM (Nat × Option ImportError)}
  (hseg : ∀ blocks, CMWriteOnly (importSegment blocks))

include hseg

theorem writeOnly_reimport (hs : List Header) (segment : List Block) (memory : Nat) :
    CMWriteOnly (env.reimport importSegment hs segment memory) := by
  induction hs generalizing segment memory with
  | nil =>
    cases segment with
    | nil => exact writeOnly_pure _
    | cons b bs => exact hseg (b :: bs)
  | cons h hs ih =>
    unfold reimport
    refine .bind (writeOnly_observe fun _ _ => rfl) fun b => ?_
    cases b with
    | none => exact writeOnly_pure _
    | some b =>
      refine .ite (.bind (hseg _) fun r => ?_) (ih _ _)
      obtain ⟨_, err⟩ := r
      cases err with
      | some err => exact writeOnly_pure _
      | none => exact .ite (writeOnly_pure _) (ih _ _)

theorem writeOnly_insertSideChain (i : Nat) (prev : Option Header) (b : Block)
    (rest : List ImportItem) :
    CMWriteOnly (env.insertSideChain importSegment i prev b rest) := by
  unfold insertSideChain
  refine .bind (writeOnly_observe fun _ _ => rfl) fun current => ?_
  refine .bind (env.writeOnly_sideLoop _ _ _ _ _ _ _) fun r => ?_
  cases r with
  | error err => exact writeOnly_pure _
  | ok r =>
    obtain ⟨externTd, c⟩ := r
    refine .bind (writeOnly_observe fun _ _ => rfl) fun localTd => ?_
    refine .ite (writeOnly_pure _) ?_
    refine .bind (writeOnly_observe fun bc db => pathToState_withCMdb _ bc db _) fun path => ?_
    exact .ite (env.writeOnly_reimport hseg _ _ _) (writeOnly_pure _)

theorem writeOnly_insertFrom (first : Block) (c : Cursor) :
    CMWriteOnly (env.insertFrom importSegment first c) := by
  unfold insertFrom
  split
  · exact writeOnly_pure _
  · refine .bind (writeOnly_observe fun _ _ => rfl) fun orphan => ?_
    refine .ite (env.writeOnly_insertSideChain hseg _ _ _ _) ?_
    refine .ite (env.writeOnly_postpone _ _ _ _) ?_
    refine .ite
      (.bind (writeOnly_modify (fun _ _ h => h) fun _ _ => rfl) fun _ => writeOnly_pure _) ?_
    refine .bind (env.writeOnly_importLoop _ _ _ _ _) fun r => ?_
    cases r with
    | error err => exact writeOnly_pure _
    | ok c =>
      dsimp only
      split
      · refine .bind (env.writeOnly_addFutureBlock _) fun r => ?_
        cases r with
        | some err => exact writeOnly_pure _
        | none =>
          dsimp only
          split
          · exact writeOnly_pure _
          · exact .bind (env.writeOnly_check _) fun e => env.writeOnly_postpone _ _ _ _
      · exact writeOnly_pure _

end Segments

theorem writeOnly_insertChain (fuel : Nat) (chain : List Block) (verifySeals : Bool) :
    CMWriteOnly (env.insertChain fuel chain verifySeals) := by
  induction fuel generalizing chain verifySeals with
  | zero =>
    unfold insertChain
    exact writeOnly_pure _
  | succ fuel ih =>
    cases chain with
    | nil => exact writeOnly_pure _
    | cons first others =>
      unfold insertChain
      refine .ite (writeOnly_pure _) ?_
      refine .bind (writeOnly_observe fun _ _ => rfl) fun results => ?_
      dsimp only
      split
      · exact writeOnly_pure _
      · refine .bind (env.writeOnly_check _) fun e => ?_
        refine .ite ?_ (env.writeOnly_insertFrom (fun blocks => ih blocks false) _ _)
        refine .bind (writeOnly_observe fun _ _ => rfl) fun localTd => ?_
        refine .bind (writeOnly_observe fun _ _ => rfl) fun externTd => ?_
        refine .bind (env.writeOnly_skipKnown _ _ _ _ _ _ _) fun c => ?_
        split
        · exact writeOnly_pure _
        · refine .bind (env.writeOnly_writeKnown _ _ _ _ _) fun r => ?_
          cases r with
          | error err => exact writeOnly_pure _
          | ok c => exact env.writeOnly_insertFrom (fun blocks => ih blocks false) _ _

/-- **Block import does not look at commitments.** For every chain and list of blocks there are
blocks in the chain that `insertChain` leaves, such that for every content of the commitment
database it returns the same index and error, leaves the same chain apart from that database, and
folds `WriteAllCM` over those blocks into it. So whether blocks are accepted never depends on which
commitments exist or are spent. -/
theorem insertChain_ignores_commitments (fuel : Nat) (chain : List Block) (verifySeals : Bool)
    (bc : BlockChain) :
    ∃ ws : List Block, (∀ w ∈ ws, ((env.insertChain fuel chain verifySeals).run bc).2.hasBlock
        w.hash w.numberU64 = true) ∧
      ∀ db, (env.insertChain fuel chain verifySeals).run (bc.withCMdb db) =
        (((env.insertChain fuel chain verifySeals).run bc).1,
          ((env.insertChain fuel chain verifySeals).run bc).2.withCMdb
            (ws.foldl RawDB.writeAllCM db)) :=
  (env.writeOnly_insertChain fuel chain verifySeals bc).2

end ImportEnv

/-- The rules the pool checks, for transactions that are written in order: inputs
present and unspent, outputs absent, and the proofs or the signature valid. -/
def FollowsRules [HashFns] (exchange regulator : Zkp.PublicKey) : CMdb → List Transaction → Prop
  | _, [] => True
  | db, tx :: txs =>
      (tx.id = 0 → (∃ r, db (cmHash tx.cmO) = some r ∧ r.spent = false) ∧
        db (cmHash tx.cmS) = none ∧ db (cmHash tx.cmR) = none ∧ verifyzkp regulator tx = none) ∧
      (tx.id = 1 → db (cmHash tx.cmV) = none ∧ validateSign exchange tx = none) ∧
      FollowsRules exchange regulator (RawDB.writeTxCM db tx) txs

namespace ImportEnv

attribute [local instance] HashFns.plain

/-- An environment in which execution changes nothing and every check of the engine passes. -/
def permissive : ImportEnv where
  sender := fun _ _ => some [1]
  homestead := fun _ => true
  istanbul := fun _ => true
  byzantium := fun _ => true
  daoFork := fun _ st => st
  evmCreate := fun _ st _ _ _ _ => ⟨st, 0, 0, [], none⟩
  evmCall := fun _ st _ _ _ _ _ => ⟨st, 0, 0, [], none⟩
  createAddress := fun a _ => a
  intermediateRoot := fun _ => []
  finalize := fun _ _ st _ _ => st
  verifyHeaders := fun _ hs _ => hs.map fun _ => none
  verifyUncles := fun _ _ => none
  calcUncleHash := fun _ => []
  deriveSha := fun _ => []
  receiptSha := fun _ => []
  createBloom := fun _ => []
  badHashes := fun _ => false
  maxTime := 0
  procInterrupt := fun _ => false
  blockSize := fun _ => 0
  commit := fun _ => some []
  coin := fun _ => false
  pruned := fun _ => []

/-- A transfer of a commitment that does not exist, without proofs. -/
def bogusTransfer : Transaction :=
  { (default : Transaction) with
    id := 0, recipient := some [2], cmO := [7], cmS := [8], cmR := [9] }

/-- A purchase of an output of that transfer, without a signature. -/
def bogusPurchase : Transaction :=
  { (default : Transaction) with id := 1, accountNonce := 1, recipient := some [2], cmV := [8] }

def bogusBlock : Block where
  header := { (default : Header) with
    parentHash := (default : Block).hash, number := 1, difficulty := 1 }
  transactions := [bogusTransfer, bogusPurchase]
  uncles := []

/-- A block is imported without error although its transfer spends nothing that exists,
its purchase is of an existing commitment, and neither carries a valid proof. -/
theorem insertChain_accepts_bogus : ((permissive.insertChain 1 [bogusBlock] true).run
        (BlockChain.genesisChain default default none)).1 = (1, none) ∧
      ¬FollowsRules Zkp.key23 Zkp.key23 RawDB.emptyCMdb bogusBlock.transactions ∧
      RawDB.writeTxCM RawDB.emptyCMdb bogusTransfer (cmHash bogusPurchase.cmV) ≠ none ∧
      verifyzkp Zkp.key23 bogusTransfer ≠ none ∧ validateSign Zkp.key23 bogusPurchase ≠ none := by
  refine ⟨by decide +kernel, ?_, by decide +kernel, by decide +kernel, by decide +kernel⟩
  rintro ⟨h, -⟩
  obtain ⟨⟨r, hr, -⟩, -⟩ := h rfl
  cases hr

end ImportEnv

end GethComments
