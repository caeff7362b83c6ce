import GethComments.Core.PoolAdmission

/-!
# Transactions of blocks that have left the chain

`reset` offers them to the pool again. The outputs of a transfer have been recorded when its
block was stored, and no record is ever deleted, so the pool refuses it.

* `Reachable.outputsRecorded`: the outputs of every stored block are recorded, in every
  reachable state;
* `reorged_transfer_refused`: a transfer of an abandoned branch is offered and refused, then and
  at any later time.
-/

namespace GethComments

variable [HashFns]

/-! ## Records of stored blocks -/

variable {bc : BlockChain}

namespace BlockChain

/-- What the transactions of stored blocks create has a record. -/
def OutputsRecorded (bc : BlockChain) : Prop :=
  ∀ n hash b, bc.blocks n hash = some b → ∀ tx ∈ b.transactions, ∀ k, tx.Creates k →
    (bc.cmdb k).isSome

theorem outputsRecorded_genesisChain {g : Block} (htxs : g.transactions = []) (st : StateDB)
    (preserve : Option (Block → Bool)) : (genesisChain g st preserve).OutputsRecorded := by
  intro n hash b hb tx htx
  have hbg : b = g := by
    simp only [genesisChain] at hb
    split at hb
    · exact (Option.some.inj hb).symm
    · cases hb
  rw [hbg, htxs] at htx
  cases htx

theorem isSome_of_creates (db : CMdb) {block : Block} {tx : Transaction}
    (htx : tx ∈ block.transactions) {k : Hash} (hk : tx.Creates k) :
    (RawDB.writeAllCM db block k).isSome := by
  unfold RawDB.writeAllCM
  rcases RawDB.writeTxs_cases block.transactions db k with ⟨hnot, -⟩ | ⟨-, r, hr, -⟩
  · exact absurd (Or.inr hk) (hnot tx htx)
  · simp [hr]

theorem OutputsRecorded.write (h : bc.OutputsRecorded) (w : BlockWrite) :
    (bc.writeBlockWithState w).1.OutputsRecorded := by
  intro n hash b hb tx htx k hk
  rw [cmdb_writeBlockWithState]
  rcases blocks_writeBlockWithState hb with ⟨hw, -, rfl⟩ | hb
  · rw [if_pos hw]
    exact isSome_of_creates bc.cmdb htx hk
  · split
    · exact isSome_writeAllCM w.block (h n hash b hb tx htx k hk)
    · exact h n hash b hb tx htx k hk

end BlockChain

namespace TxPool

variable {pool0 pool pool' : TxPool} {tx : Transaction}

/-! ## Blocks under the pool -/

theorem Follows.blocks (h : Follows pool pool') : pool'.chain.blocks = pool.chain.blocks := by
  rw [h.chain]

theorem blocks_reset (pool : TxPool) (oldHead : Option Header) (newHead : Header) :
    (pool.reset oldHead newHead).chain.blocks = pool.chain.blocks :=
  reset_induction (P := fun p => p.chain.blocks = pool.chain.blocks) rfl (fun _ _ _ => rfl)
    (fun p tx h => (follows_add p tx false).blocks.trans h) oldHead newHead

theorem blocks_step (pool : TxPool) (op : PoolOp) (hop : ∀ w, op ≠ .writeBlock w) :
    (pool.step op).chain.blocks = pool.chain.blocks := by
  cases op with
  | add tx isLocal => exact (follows_add pool tx isLocal).blocks
  | removeTx hash outofbound => exact (indexes_removeTx pool hash outofbound).blocks
  | promoteExecutables accounts now => exact (indexes_promoteExecutables pool now accounts).blocks
  | demoteUnexecutables order => exact (indexes_demoteUnexecutables pool order).blocks
  | truncatePending order => exact (indexes_truncatePending pool order).blocks
  | truncateQueue order => exact (indexes_truncateQueue pool order).blocks
  | reset oldHead newHead => exact blocks_reset pool oldHead newHead
  | writeBlock w => exact absurd rfl (hop w)

theorem blocks_runReorg (pool : TxPool) (r : ReorgRun) :
    (pool.runReorg r).chain.blocks = pool.chain.blocks := by
  unfold runReorg
  dsimp only [updateNonces]
  refine (indexes_truncateQueue _ _).blocks.trans ((indexes_truncatePending _ _).blocks.trans ?_)
  have hreset : ((r.heads.map fun hd => pool.reset hd.1 hd.2).getD pool).chain.blocks =
      pool.chain.blocks := by
    cases r.heads with
    | none => rfl
    | some hd => exact blocks_reset pool hd.1 hd.2
  split
  · exact (indexes_demoteUnexecutables _ _).blocks.trans
      ((indexes_promoteExecutables _ _ _).blocks.trans hreset)
  · exact (indexes_promoteExecutables _ _ _).blocks.trans hreset

theorem blocks_call (pool : TxPool) (c : PoolCall) (hc : ∀ w, c ≠ .writeBlock w) :
    (pool.call c).chain.blocks = pool.chain.blocks := by
  cases c with
  | addTxs txs isLocal =>
    exact addTxs_induction (P := fun p => p.chain.blocks = pool.chain.blocks) txs
      (fun p tx _ h => (follows_add p tx isLocal).blocks.trans h) rfl
  | runReorg r => exact blocks_runReorg pool r
  | setGasPrice price => exact (indexes_removeAll { pool with priced := _ } _ false).blocks
  | evict lifetime now order => exact (indexes_evict pool lifetime now order).blocks
  | rotate order => rfl
  | writeBlock w => exact absurd rfl (hc w)

theorem Sound.rebase (h : Sound pool0 pool) : Sound pool pool :=
  ⟨h.here, h.counted, h.filled, h.slots, h.covers⟩

theorem outputsRecorded_of_sound (h : pool.chain.OutputsRecorded) (hs : Sound pool pool')
    (hb : pool'.chain.blocks = pool.chain.blocks) : pool'.chain.OutputsRecorded := by
  intro n hash b hblock tx htx k hk
  rw [hb] at hblock
  exact hs.reaches.evolves.isSome (h n hash b hblock tx htx k hk)

theorem Reachable.outputsRecorded (h : Reachable pool0 pool) (h0 : Sound pool0 pool0)
    (hrec : pool0.chain.OutputsRecorded) : pool.chain.OutputsRecorded := by
  induction h with
  | refl => exact hrec
  | @step pool h op ih =>
    by_cases hop : ∃ w, op = .writeBlock w
    · obtain ⟨w, rfl⟩ := hop
      exact ih.write w
    · exact outputsRecorded_of_sound ih ((h.sound h0).rebase.step op)
        (blocks_step pool op fun w hw => hop ⟨w, hw⟩)
  | @call pool h c ih =>
    by_cases hc : ∃ w, c = .writeBlock w
    · obtain ⟨w, rfl⟩ := hc
      exact ih.write w
    · exact outputsRecorded_of_sound ih ((h.sound h0).rebase.call c)
        (blocks_call pool c fun w hw => hc ⟨w, hw⟩)

/-- **Nothing stored is forgotten.** After any calls, what the transactions of a stored block
create has a record, also if the block has left the chain. -/
theorem stored_outputs_recorded (g : Block) (st : StateDB) (preserve : Option (Block → Bool))
    (config : TxPoolConfig) (signer : Transaction → Option Address)
    (journal : Option (List Transaction)) (cs : List PoolCall) :
    ((newTxPool config (BlockChain.genesisChain { g with transactions := [] } st preserve) signer
      journal).calls cs).chain.OutputsRecorded := by
  refine (reachable_calls _ cs).outputsRecorded (sound_newTxPool ..) ?_
  rw [chain_newTxPool]
  exact BlockChain.outputsRecorded_genesisChain rfl st preserve

/-! ## Refusal -/

/-- The error with which the pool refuses a transfer whose outputs are recorded. -/
def IsRefusal (pool : TxPool) (tx : Transaction) (err : TxError) : Prop :=
  if (pool.all.get tx.hash).isSome then err = .alreadyKnown
  else err = .invalidCM ∨ err = .existedCM

/-- `add` leaves the pool as it is and returns such an error. -/
def Refuses (pool : TxPool) (tx : Transaction) (isLocal : Bool) (err : TxError) : Prop :=
  pool.IsRefusal tx err ∧ pool.add tx isLocal = (pool, .error err)

theorem add_refused (h0 : tx.id = 0) (hS : (pool.chain.cmdb (cmHash tx.cmS)).isSome)
    (isLocal : Bool) : ∃ err, pool.Refuses tx isLocal err := by
  have hcm : ∃ err, (err = TxError.invalidCM ∨ err = TxError.existedCM) ∧
      validateCM pool.chain.cmdb tx = some err := by
    have h1 : tx.id ≠ 1 := by simp [h0]
    unfold validateCM
    rw [if_neg h1, if_pos h0]
    split
    · exact ⟨_, Or.inl rfl, rfl⟩
    · split
      · exact ⟨_, Or.inl rfl, rfl⟩
      · exact ⟨_, Or.inr rfl, if_pos hS⟩
  obtain ⟨err, herr, hv⟩ := hcm
  refine ⟨_, ?_, add_of_validateCM hv isLocal⟩
  unfold IsRefusal
  split
  · rfl
  · exact herr

theorem addTxsLocked_refused (h : Sound pool0 pool) (h0 : tx.id = 0)
    (hS : (pool.chain.cmdb (cmHash tx.cmS)).isSome) (isLocal : Bool) (txs : List Transaction)
    {res : Option TxError} (hres : (tx, res) ∈ txs.zip (pool.addTxsLocked isLocal txs).2.1) :
    ∃ pool' err, Sound pool0 pool' ∧ pool'.Refuses tx isLocal err ∧ res = some err := by
  induction txs generalizing pool with
  | nil => cases hres
  | cons t txs ih =>
    rw [(addTxsLocked_cons pool isLocal t txs).2, List.zip_cons_cons] at hres
    rcases List.mem_cons.mp hres with heq | hres
    · cases heq
      obtain ⟨err, herr, hadd⟩ := add_refused h0 hS isLocal
      exact ⟨pool, err, h, ⟨herr, hadd⟩, by rw [hadd]⟩
    · exact ih (h.add t isLocal) ((h.rebase.add t isLocal).reaches.evolves.isSome hS) hres

/-! ## Reinjection -/

/-- `reset` before the transactions are offered. -/
def setHead (pool : TxPool) (statedb : StateDB) (newHead : Header) : TxPool :=
  { pool with
    currentState := statedb
    pendingNonces := TxNoncer.new statedb
    currentMaxGas := newHead.gasLimit }

theorem reset_eq {oldHead newHead : Header} {txs : List Transaction} {statedb : StateDB}
    (htxs : reinject pool.chain oldHead newHead = some txs)
    (hstate : pool.chain.stateAt newHead.root = some statedb) :
    pool.reset (some oldHead) newHead =
      ((pool.setHead statedb newHead).addTxsLocked false txs).1 := by
  unfold reset
  rw [Option.map_some, Option.getD_some, htxs]
  dsimp only
  rw [hstate]
  rfl

/-- The two heads are on different branches, whose blocks are found, and not far apart. -/
structure Fork (chain : BlockChain) (oldHead newHead : Header) (discarded included : List Block) :
    Prop where
  apart : oldHead.hash ≠ newHead.parentHash
  near : ((UInt64.ofNat oldHead.number).toNat : Int) - (UInt64.ofNat newHead.number).toNat ≤ 64 ∧
    ((UInt64.ofNat newHead.number).toNat : Int) - (UInt64.ofNat oldHead.number).toNat ≤ 64
  chains : ∃ rem add, chain.getBlock oldHead.hash (UInt64.ofNat oldHead.number) = some rem ∧
    chain.getBlock newHead.hash (UInt64.ofNat newHead.number) = some add ∧
    chain.reorgChains rem add = .ok (discarded, included)

theorem Fork.reinject_eq {chain : BlockChain} {oldHead newHead : Header}
    {discarded included : List Block} (h : Fork chain oldHead newHead discarded included) :
    reinject chain oldHead newHead = some (txDifference (discarded.flatMap Block.transactions)
      (included.flatMap Block.transactions)) := by
  obtain ⟨rem, add, hrem, hadd, hchains⟩ := h.chains
  unfold reinject
  rw [if_neg h.apart]
  dsimp only
  rw [if_neg (by simp only [Bool.or_eq_true, decide_eq_true_eq]; have := h.near; omega), hrem, hadd]
  dsimp only [Option.bind_eq_bind, Option.bind_some]
  rw [hchains]

omit [HashFns] in
theorem blocks_of_stepBack {n : Nat} {b reached : Block} {left : List Block}
    (hb : ∃ i hash, bc.blocks i hash = some b) (h : bc.stepBack n b = some (left, reached)) :
    (∀ c ∈ left, ∃ i hash, bc.blocks i hash = some c) ∧
      ∃ i hash, bc.blocks i hash = some reached := by
  induction n generalizing b left with
  | zero =>
    cases h
    exact ⟨by simp, hb⟩
  | succ n ih =>
    simp only [BlockChain.stepBack, Option.bind_eq_bind, Option.bind_eq_some_iff] at h
    obtain ⟨p, hp, ⟨left', reached'⟩, hrest, heq⟩ := h
    cases heq
    obtain ⟨hleft, hreached⟩ := ih ⟨_, _, hp⟩ hrest
    exact ⟨List.forall_mem_cons.mpr ⟨hb, hleft⟩, hreached⟩

theorem blocks_of_commonAncestor {n : Nat} {old new : Block} {oldChain newChain : List Block}
    (hold : ∃ i hash, bc.blocks i hash = some old)
    (h : bc.commonAncestor n old new = .ok (oldChain, newChain)) :
    ∀ c ∈ oldChain, ∃ i hash, bc.blocks i hash = some c := by
  fun_induction BlockChain.commonAncestor bc n old new generalizing oldChain newChain with
  | case1 =>
    cases h
    simp
  | case2 => cases h
  | case3 => cases h
  | case4 => cases h
  | case5 old new _ old' hold' new' _ n ih =>
    cases hc : bc.commonAncestor n old' new' with
    | error e =>
      simp only [hc] at h
      cases h
    | ok r =>
      simp only [hc] at h
      cases h
      exact List.forall_mem_cons.mpr ⟨hold, ih ⟨_, _, hold'⟩ hc⟩

theorem blocks_of_reorgChains {old new : Block} {oldChain newChain : List Block}
    (hold : ∃ i hash, bc.blocks i hash = some old)
    (h : bc.reorgChains old new = .ok (oldChain, newChain)) :
    ∀ c ∈ oldChain, ∃ i hash, bc.blocks i hash = some c := by
  unfold BlockChain.reorgChains at h
  split at h
  · split at h
    · cases h
    · next left old' hstep =>
      obtain ⟨hleft, hreached⟩ := blocks_of_stepBack hold hstep
      cases hc : bc.commonAncestor new.numberU64.toNat old' new with
      | error e =>
        simp only [hc] at h
        cases h
      | ok r =>
        simp only [hc] at h
        cases h
        exact List.forall_mem_append.mpr ⟨hleft, blocks_of_commonAncestor hreached hc⟩
  · split at h
    · cases h
    · next left new' _ =>
      cases hc : bc.commonAncestor old.numberU64.toNat old new' with
      | error e =>
        simp only [hc] at h
        cases h
      | ok r =>
        simp only [hc] at h
        cases h
        exact blocks_of_commonAncestor hold hc

/-- **Transfers of an abandoned branch are offered again, and refused.** From a genesis block
without transactions, in every reachable state with a fork: a transfer of the old branch that is
not in the new one is among the transactions that `reset` offers, each of its offers is answered
by an error, and so is every `add` of it in any later state. -/
theorem reorged_transfer_refused {g : Block} (htxs : g.transactions = []) {st : StateDB}
    {preserve : Option (Block → Bool)} {config : TxPoolConfig}
    {signer : Transaction → Option Address} {journal : Option (List Transaction)}
    (h : Reachable (newTxPool config (BlockChain.genesisChain g st preserve) signer journal) pool)
    {oldHead newHead : Header} {discarded included : List Block}
    (hfork : Fork pool.chain oldHead newHead discarded included) {statedb : StateDB}
    (hstate : pool.chain.stateAt newHead.root = some statedb) (h0 : tx.id = 0)
    (hold : ∃ b ∈ discarded, tx ∈ b.transactions)
    (hnew : ∀ b ∈ included, ∀ u ∈ b.transactions, u.hash ≠ tx.hash) :
    (∃ txs, pool.reset (some oldHead) newHead =
        ((pool.setHead statedb newHead).addTxsLocked false txs).1 ∧ tx ∈ txs ∧
      ∀ res, (tx, res) ∈ txs.zip ((pool.setHead statedb newHead).addTxsLocked false txs).2.1 →
        ∃ pool' err, Sound pool pool' ∧ pool'.Refuses tx false err ∧ res = some err) ∧
    ∀ pool', Reachable pool pool' → ∀ isLocal, ∃ err, pool'.Refuses tx isLocal err := by
  have hnewPool := sound_newTxPool config (BlockChain.genesisChain g st preserve) signer journal
  have hs := (h.sound hnewPool).rebase
  have hchain : (newTxPool config (BlockChain.genesisChain g st preserve) signer
      journal).chain.OutputsRecorded := by
    rw [chain_newTxPool]
    exact BlockChain.outputsRecorded_genesisChain htxs st preserve
  have hrec := h.outputsRecorded hnewPool hchain
  -- the outputs of the transfer have been recorded with its block
  have hS : (pool.chain.cmdb (cmHash tx.cmS)).isSome := by
    obtain ⟨b, hb, htx⟩ := hold
    obtain ⟨rem, add, hrem, -, hchains⟩ := hfork.chains
    obtain ⟨i, hash, hblock⟩ := blocks_of_reorgChains ⟨_, _, hrem⟩ hchains b hb
    exact hrec i hash b hblock tx htx _ (Or.inr ⟨h0, Or.inl rfl⟩)
  constructor
  · refine ⟨_, reset_eq hfork.reinject_eq hstate, ?_, fun res hres => ?_⟩
    · obtain ⟨b, hb, htx⟩ := hold
      refine List.mem_filter.mpr ⟨List.mem_flatMap.mpr ⟨b, hb, htx⟩, ?_⟩
      simp only [decide_eq_true_eq, List.mem_map, List.mem_flatMap, not_exists, not_and]
      rintro u ⟨b', hb', hu⟩
      exact hnew b' hb' u hu
    · have hhead : Sound pool (pool.setHead statedb newHead) := hs.frame rfl rfl rfl rfl rfl rfl
      exact addTxsLocked_refused hhead h0 hS false _ hres
  · intro pool' hreach isLocal
    exact add_refused h0 ((hreach.sound hs).reaches.evolves.isSome hS) isLocal

end TxPool

end GethComments

namespace GethComments.TxPool

/-! ## A small fork -/

attribute [local instance] HashFns.plain

/-- A run of `runReorg` after the head has moved. -/
def headRun (oldHead newHead : Header) : ReorgRun :=
  { promoteRun with heads := some (some oldHead, newHead), dirtyAccounts := [] }

/-- A heavier sibling of `splitWrite`, without transactions. -/
def competingWrite : BlockChain.BlockWrite :=
  let w := childWrite mintWrite.block.header 0 []
  { w with block := { w.block with header := { w.block.header with difficulty := 2 } } }

/-- The commitment `[10]` is minted, a transfer of it is mined and leaves the pool, and then the
block of the transfer leaves the chain. -/
def abandoned : List PoolCall :=
  [.writeBlock mintWrite, .runReorg (headRun default mintWrite.block.header),
    .addTxs [split34] false, .runReorg promoteRun, .writeBlock splitWrite,
    .runReorg (headRun mintWrite.block.header splitWrite.block.header), .writeBlock competingWrite]

attribute [local irreducible] abandoned

theorem fork_abandoned : Fork (genesisPool.calls abandoned).chain splitWrite.block.header
    competingWrite.block.header [splitWrite.block] [competingWrite.block] := by
  refine ⟨by decide, by decide, splitWrite.block, competingWrite.block, ?_⟩
  decide +kernel

theorem reorged_transfer_refused_abandoned :
    Fork (genesisPool.calls abandoned).chain splitWrite.block.header competingWrite.block.header
        [splitWrite.block] [competingWrite.block] ∧
      ∀ isLocal, ∃ err, (genesisPool.calls abandoned).Refuses split34 isLocal err := by
  have hstate : ((genesisPool.calls abandoned).chain.stateAt
      competingWrite.block.header.root).isSome = true := by
    decide +kernel
  obtain ⟨statedb, hstate⟩ := Option.isSome_iff_exists.mp hstate
  refine ⟨fork_abandoned, fun isLocal => ?_⟩
  refine (reorged_transfer_refused rfl (reachable_calls genesisPool abandoned) fork_abandoned
    hstate rfl ⟨splitWrite.block, List.mem_singleton_self _, List.mem_singleton_self _⟩ ?_).2 _
    .refl isLocal
  intro b hb u hu
  cases List.mem_singleton.mp hb
  cases hu

/-- A transfer that has been accepted and mined is lost when its block leaves the chain, although
the new branch has no transactions and the nonce is right. -/
theorem reorged_transfer_lost :
    ((genesisPool.calls (abandoned.take 2)).add split34 false).2.isOk = true ∧
      (genesisPool.calls abandoned).chain.currentBlock = competingWrite.block ∧
      Fork (genesisPool.calls abandoned).chain splitWrite.block.header
        competingWrite.block.header [splitWrite.block] [competingWrite.block] ∧
      competingWrite.block.transactions = [] ∧
      ((genesisPool.calls abandoned).chain.stateAt competingWrite.block.header.root).map
        (fun statedb => statedb.nonce zeroAddress) = some split34.accountNonce ∧
      ((genesisPool.calls abandoned).reset (some splitWrite.block.header)
        competingWrite.block.header).all.get split34.hash = none := by
  obtain ⟨hadd, hcur, hnonce, hall⟩ :
      ((genesisPool.calls (abandoned.take 2)).add split34 false).2.isOk = true ∧
      (genesisPool.calls abandoned).chain.currentBlock = competingWrite.block ∧
      ((genesisPool.calls abandoned).chain.stateAt competingWrite.block.header.root).map
        (fun statedb => statedb.nonce zeroAddress) = some split34.accountNonce ∧
      ((genesisPool.calls abandoned).reset (some splitWrite.block.header)
        competingWrite.block.header).all.get split34.hash = none := by
    decide +kernel
  exact ⟨hadd, hcur, fork_abandoned, rfl, hnonce, hall⟩

end GethComments.TxPool
