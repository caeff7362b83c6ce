import GethComments.Core.CommitmentRules
import GethComments.Core.PoolRuns

/-!
# Commitments along runs of the pool

The four properties of the ledger, for every run of the pool and the chain from an empty
pool. None of them holds of every run; each comes with the condition on the steps of the
run under which it does, and with a run that breaks it.

* `no_double_spend`: what a written block has spent is not admitted again;
* `locked_iff_holds`: the lock bits mirror the pool;
* `created_of_validateCM`: only what a written block has created can be spent;
* `conflictFree_run`: pooled transactions do not collide.
-/

namespace GethComments.TxPool

open BlockChain RawDB

/-! ## Small chains -/

section

attribute [local instance] HashFns.plain

/-- All transactions have one sender, and both keys are `key23`. -/
def genesisPool : TxPool :=
  newTxPool ⟨[], 0, 0, 0, 0, 0, Zkp.key23, Zkp.key23⟩
    (genesisChain default default none) (fun _ => some zeroAddress) none

theorem isEmpty_genesisPool : genesisPool.IsEmpty := isEmpty_newTxPool _ _ _ _

/-- A purchase of the commitment `[10]`, signed under `key23`. -/
def purchase10 : Transaction :=
  { (default : Transaction) with
    id := 1, cmV := [10], sigM := [1], sigMHash := HashFns.sum256 [1], sigR := [2], sigS := [3] }

/-- A block that follows the header, whose state has the nonce `nonce` for every account. -/
def childBlock (parent : Header) (nonce : UInt64) (txs : List Transaction) : Block where
  header := { (default : Header) with
    parentHash := parent.hash, number := parent.number + 1, difficulty := 1
    root := [nonce.toUInt8] }
  transactions := txs
  uncles := []

def childWrite (parent : Header) (nonce : UInt64) (txs : List Transaction) :
    BlockWrite where
  block := childBlock parent nonce txs
  state := { (default : StateDB) with nonce := fun _ => nonce }
  commit := some [nonce.toUInt8]
  coin := false
  pruned := []

def mintWrite : BlockWrite := childWrite default 0 [purchase10]

/-- The block after `mintWrite`, in which `[10]` is split. -/
def splitWrite : BlockWrite := childWrite mintWrite.block.header 1 [split34]

/-- The commitment is minted, and a transfer of it waits in the queue. -/
def waiting : List PoolOp := [.writeBlock mintWrite, .add split34 false]

/-- It is removed with `reorgCM`. -/
def removed : List PoolOp := waiting ++ [.removeTx split34.hash true]

end

/-! ## Double spending -/

section

variable [HashFns] {pool : TxPool}

theorem validateCM_of_isOk_add {tx : Transaction} {isLocal : Bool}
    (h : (pool.add tx isLocal).2.isOk = true) : validateCM pool.ledger.db tx = none := by
  unfold add at h
  cases hv : pool.validate tx with
  | some err =>
    rw [hv] at h
    cases h
  | none => exact (validate_eq_none hv).1.1

/-- **No double spend.** Once a block with a transfer has been written, `add` returns an error
on every transfer of the same commitment, and none has entered the pool since, if the run never
calls `reorgCM` on a transaction whose commitment is spent and its blocks respect spent
commitments. -/
theorem no_double_spend (h : pool.IsEmpty) (before after : List PoolOp) (w : BlockChain.BlockWrite)
    (hw : (pool.run before).chain.Writes w)
    (hok : Run.Along Ledger.step Ledger.NoUnspend pool.ledger
      (pool.run (before ++ .writeBlock w :: after)).history)
    (tx : Transaction) (htx : tx ∈ w.block.transactions) (h0 : tx.id = 0) (u : Transaction)
    (hu : u.id = 0) (heq : u.cmO = tx.cmO) :
    (∀ isLocal, ((pool.run (before ++ .writeBlock w :: after)).add u isLocal).2.isOk = false) ∧
      ∃ later, (pool.run (before ++ .writeBlock w :: after)).history =
        (pool.run (before ++ [.writeBlock w])).history ++ later ∧ CMEvent.lock u ∉ later := by
  have hspent : ∀ ops, Run.Along Ledger.step Ledger.NoUnspend pool.ledger (pool.run ops).history →
      (pool.run ops).ledger.SpentStays := by
    refine fun ops => invariant_run (fun _ _ => Ledger.spentStays_step) h ops fun block hb => ?_
    have hb' : CMEvent.store block ∈ pool.events := hb
    rw [h.events] at hb'
    exact absurd hb' List.not_mem_nil
  have hstored : ∀ rest, (pool.run (before ++ .writeBlock w :: rest)).ledger.Stored w.block :=
    fun rest => (stored_run h _ _).mpr ⟨before, w, rest, rfl, hw, rfl⟩
  constructor
  · intro isLocal
    rw [Bool.eq_false_iff]
    intro hadd
    exact (hspent _ hok).not_validateCM (hstored after) htx h0 hu heq (validateCM_of_isOk_add hadd)
  · have hsplit : before ++ .writeBlock w :: after = (before ++ [.writeBlock w]) ++ after := by simp
    rw [hsplit] at hok ⊢
    obtain ⟨later, hhist, hfirst, hrest⟩ := along_rest h _ _ hok
    exact ⟨later, hhist, (hspent _ hfirst).lock_not_mem (hstored []) htx h0 hu heq hrest⟩

end

section

attribute [local instance] HashFns.plain

/-- Another transfer of `[10]`, by the next nonce. -/
def secondSplit : Transaction := { split16 with accountNonce := 1 }

/-- A purchase of the commitment `[5]`. -/
def purchase5 : Transaction := { purchase10 with cmV := [5], accountNonce := 1 }

theorem respectsSpent_one {db : CMdb} {block : Block} {tx : Transaction}
    (hb : block.transactions = [tx]) (h : ∀ k, tx.Creates k → ¬Spent db k ∧ ¬tx.Spends k) :
    Ledger.RespectsSpent db block := by
  intro pre t post heq k hk hs
  have ht : t = tx := List.mem_singleton.mp (by simp [← hb, heq])
  subst ht
  rcases hs with hs | ⟨u, hu, hus⟩
  · exact absurd hs (h k hk).1
  · rw [hb, List.mem_singleton] at hu
    exact absurd (hu ▸ hus) (h k hk).2

/-- The transfer is mined after it was removed, and a purchase enters. -/
def remined : List PoolOp := removed ++ .writeBlock splitWrite :: [.add purchase5 false]

-- only the kernel evaluates the runs
attribute [local irreducible] waiting removed

theorem run_remined : (genesisPool.run removed).chain.Writes splitWrite ∧
    (genesisPool.run remined).history = [.store mintWrite.block, .lock split34, .unlock split34,
      .store splitWrite.block, .lock purchase5] := by
  decide +kernel

theorem noUnspend_remined :
    Run.Along Ledger.step Ledger.NoUnspend genesisPool.ledger
      (genesisPool.run remined).history := by
  rw [run_remined.2]
  refine ⟨respectsSpent_one rfl ?_, trivial, ?_, respectsSpent_one rfl ?_, trivial, trivial⟩
  · rintro k (⟨-, rfl⟩ | ⟨h0, -⟩)
    · decide
    · cases h0
  · intro k hk
    rcases (split34.locks_iff k).mp hk with ⟨h1, -⟩ | ⟨-, rfl⟩
    · cases h1
    · decide
  · rintro k (⟨h1, -⟩ | ⟨-, rfl | rfl⟩)
    · cases h1
    · decide
    · decide

/-- A transfer is pooled, removed and mined: no other transfer of its commitment is admitted. -/
theorem no_double_spend_remined :
    (∀ isLocal, ((genesisPool.run remined).add secondSplit isLocal).2.isOk = false) ∧
      ∃ later, (genesisPool.run remined).history =
        (genesisPool.run (removed ++ [.writeBlock splitWrite])).history ++ later ∧
        CMEvent.lock secondSplit ∉ later :=
  no_double_spend isEmpty_genesisPool removed [.add purchase5 false] splitWrite run_remined.1
    noUnspend_remined split34 (List.mem_singleton_self _) rfl secondSplit rfl rfl

/-- A transfer that is mined while it waits in the queue is unlocked by `promoteExecutables`, and
its commitment can be spent again. -/
theorem double_spend_after_promotion :
    genesisPool.IsEmpty ∧ split34 ∈ splitWrite.block.transactions ∧ split34.id = 0 ∧
      secondSplit.id = 0 ∧ secondSplit.cmO = split34.cmO ∧
      (genesisPool.run waiting).chain.Writes splitWrite ∧
      ((genesisPool.run (waiting ++ .writeBlock splitWrite ::
        [.reset (some mintWrite.block.header) splitWrite.block.header,
          .promoteExecutables [zeroAddress] fun _ => 0])).add secondSplit false).2.isOk = true := by
  refine ⟨isEmpty_genesisPool, List.mem_singleton_self _, rfl, rfl, rfl, ?_⟩
  decide +kernel

end

/-! ## Lock bits -/

section

variable [HashFns] {pool : TxPool}

theorem IsEmpty.not_holds (h : pool.IsEmpty) (tx : Transaction) (k : Hash) :
    ¬pool.ledger.Holds tx k :=
  fun hh => h.not_has tx hh.1

end

section

attribute [local instance] HashFns.plain

theorem not_locked_genesisPool (k : Hash) : ¬Locked genesisPool.chain.cmdb k := by
  rintro ⟨r, hr, -⟩
  cases hr

/-- The transfer is removed, and another one of the same commitment enters. -/
def replaced : List PoolOp := removed ++ [.add split16 false]

-- only the kernel evaluates the runs
attribute [local irreducible] waiting removed replaced

theorem run_replaced : (genesisPool.run replaced).history =
      [.store mintWrite.block, .lock split34, .unlock split34, .lock split16] ∧
    (genesisPool.run replaced).chain.cmdb (cmHash [10]) = some ⟨[10], false, true⟩ := by
  decide +kernel

theorem cleanExit_replaced :
    Run.Along Ledger.step Ledger.CleanExit genesisPool.ledger
      (genesisPool.run replaced).history := by
  rw [run_replaced.1]
  refine ⟨trivial, trivial, fun k u _ hu => ?_, trivial, trivial⟩
  rcases (Ledger.has_lock rfl).mp hu.1 with rfl | hu
  · rfl
  · exact absurd hu (isEmpty_genesisPool.not_has u)

/-- The block after `mintWrite`, with another transaction of the sender. -/
def otherWrite : BlockWrite :=
  childWrite mintWrite.block.header 1 [{ purchase10 with cmV := [8] }]

/-- A pending transfer, whose nonce another transaction of the sender uses. -/
def overtaken : List PoolOp :=
  waiting ++ [.promoteExecutables [zeroAddress] fun _ => 0, .writeBlock otherWrite,
    .reset (some mintWrite.block.header) otherWrite.block.header,
    .demoteUnexecutables [zeroAddress]]

attribute [local irreducible] overtaken

end

/-! ## Created commitments -/

section

variable [HashFns] {pool : TxPool}

/-- **Only mined coins are spendable.** From an empty database, a transfer is admitted only if a
block that the run has written creates its commitment, if `reorgCM` is never called on a purchase
that no written block has created. -/
theorem created_of_validateCM (h : pool.IsEmpty) (hdb : pool.chain.cmdb = RawDB.emptyCMdb)
    (ops : List PoolOp)
    (hok : Run.Along Ledger.step Ledger.BackedUnlock pool.ledger (pool.run ops).history)
    (tx : Transaction) (h0 : tx.id = 0)
    (hv : validateCM (pool.run ops).chain.cmdb tx = none) :
    ∃ before w after, ops = before ++ .writeBlock w :: after ∧ (pool.run before).chain.Writes w ∧
      ∃ t ∈ w.block.transactions, t.Creates (cmHash tx.cmO) := by
  have hstart : pool.ledger.Backed := by
    refine ⟨fun k r hr => ?_, fun t ht => absurd ht (h.not_has t)⟩
    have hr' : pool.chain.cmdb k = some r := hr
    rw [hdb] at hr'
    cases hr'
  have hend := invariant_run (fun _ _ => Ledger.backed_step) h ops hstart hok
  obtain ⟨block, hb, t, ht, hc⟩ := hend.of_validateCM h0 hv
  obtain ⟨before, w, after, hops, hw, rfl⟩ := (stored_run h ops block).mp hb
  exact ⟨before, w, after, hops, hw, t, ht, hc⟩

end

section

attribute [local instance] HashFns.plain

/-- After the removal another block is written. -/
def extended : List PoolOp := removed ++ [.writeBlock otherWrite]

-- only the kernel evaluates the runs
attribute [local irreducible] waiting removed extended

theorem run_extended : (genesisPool.run extended).history =
      [.store mintWrite.block, .lock split34, .unlock split34, .store otherWrite.block] ∧
    validateCM (genesisPool.run extended).chain.cmdb split16 = none := by
  decide +kernel

/-- A transfer of the commitment that a block has minted, after another one has left the pool. -/
theorem created_of_validateCM_extended :
    ∃ before w after, extended = before ++ .writeBlock w :: after ∧
      (genesisPool.run before).chain.Writes w ∧
      ∃ t ∈ w.block.transactions, t.Creates (cmHash split16.cmO) := by
  refine created_of_validateCM isEmpty_genesisPool rfl extended ?_ split16 rfl run_extended.2
  rw [run_extended.1]
  refine ⟨trivial, trivial, fun h1 => ?_, trivial, trivial⟩
  cases h1

/-- A purchase that has left the pool can be spent, though no block has been written. -/
theorem spendable_after_removal : genesisPool.IsEmpty ∧ genesisPool.chain.cmdb = RawDB.emptyCMdb ∧
      (∀ w, PoolOp.writeBlock w ∉ [.add purchase10 false, .removeTx purchase10.hash true]) ∧
      split34.id = 0 ∧ split34.cmO = purchase10.cmV ∧
      validateCM (genesisPool.run [.add purchase10 false,
        .removeTx purchase10.hash true]).chain.cmdb split34 = none := by
  refine ⟨isEmpty_genesisPool, rfl, fun w => by simp, rfl, rfl, ?_⟩
  decide +kernel

end

/-! ## Conflicts -/

section

variable [HashFns] {pool : TxPool}

theorem IsEmpty.inputsApart (h : pool.IsEmpty) : pool.ledger.InputsApart where
  recorded := fun tx ht => absurd ht (h.not_has tx)
  spends := fun tx _ ht => absurd ht (h.not_has tx)
  buys := fun tx _ ht => absurd ht (h.not_has tx)

/-- **Inputs of pooled transactions.** The inputs of pooled transfers stay locked or spent exactly
in the runs that keep them, and in these no two pooled transfers spend one commitment and no two
pooled purchases create one, whatever their outputs are. -/
theorem inputs_run (h : pool.IsEmpty) (ops : List PoolOp) :
    (Run.Along Ledger.step Ledger.InputsKept pool.ledger (pool.run ops).history ↔
      ∀ es, es <+: (pool.run ops).history → (es.foldl Ledger.step pool.ledger).InputsHeld) ∧
    (Run.Along Ledger.step Ledger.InputsKept pool.ledger (pool.run ops).history →
      (pool.run ops).ledger.InputsApart) := by
  have hheld : pool.ledger.InputsHeld := fun tx ht => absurd ht (h.not_has tx)
  refine ⟨Run.along_iff_prefix (fun _ _ => Ledger.inputsApart_step)
    (fun _ _ => Ledger.inputsKept_iff) _ _ hheld h.inputsApart (h.history ops).1, fun hok => ?_⟩
  refine (invariant_run (P := fun L => L.InputsHeld ∧ L.InputsApart) (fun L e hP he => ?_) h ops
    ⟨hheld, h.inputsApart⟩ hok).2
  exact ⟨(Ledger.inputsKept_iff hP.1 hP.2 he.1).mp he.2, Ledger.inputsApart_step hP.1 hP.2 he.1⟩

theorem conflictFree_iff (h : pool.IsEmpty) (ops : List PoolOp)
    (hkept : Run.Along Ledger.step Ledger.InputsKept pool.ledger (pool.run ops).history) :
    Run.Along Ledger.step Ledger.FreshOutputs pool.ledger (pool.run ops).history ↔
      ∀ es, es <+: (pool.run ops).history → (es.foldl Ledger.step pool.ledger).ConflictFree := by
  have hfree : pool.ledger.ConflictFree :=
    ⟨fun tx ht => absurd ht (h.not_has tx), fun tx _ ht => absurd ht (h.not_has tx)⟩
  have hlegal := Run.along_and (h.history ops).1 hkept
  refine Run.along_iff_prefix (U := fun L => L.InputsHeld ∧ L.InputsApart) ?_ ?_ _ _ hfree
    ⟨fun tx ht => absurd ht (h.not_has tx), h.inputsApart⟩ hlegal
  · rintro L e - hP ⟨he, hkeep⟩
    exact ⟨(Ledger.inputsKept_iff hP.1 hP.2 he).mp hkeep, Ledger.inputsApart_step hP.1 hP.2 he⟩
  · rintro L e hL hP ⟨he, -⟩
    exact Ledger.freshOutputs_iff hL hP.1 hP.2 he

/-- **Pooled transactions are conflict free.** In every run that keeps the inputs of pooled
transfers, no two pooled transfers have the same `CmO` and no two pooled purchases the same `CmV`.
There is no conflict after any event exactly if the outputs of all transactions that enter are
fresh; then a block of pooled transactions writes every record that it creates once. -/
theorem conflictFree_run (h : pool.IsEmpty) (ops : List PoolOp)
    (hkept : Run.Along Ledger.step Ledger.InputsKept pool.ledger (pool.run ops).history) :
    (∀ tx u, (pool.run ops).all.get tx.hash = some tx → (pool.run ops).all.get u.hash = some u →
      tx ≠ u → (tx.id = 0 → u.id = 0 → tx.cmO ≠ u.cmO) ∧ (tx.id = 1 → u.id = 1 → tx.cmV ≠ u.cmV)) ∧
    (Run.Along Ledger.step Ledger.FreshOutputs pool.ledger (pool.run ops).history ↔
      ∀ es, es <+: (pool.run ops).history → (es.foldl Ledger.step pool.ledger).ConflictFree) ∧
    (Run.Along Ledger.step Ledger.FreshOutputs pool.ledger (pool.run ops).history →
      (∀ tx, (pool.run ops).all.get tx.hash = some tx → tx.id = 0 → tx.cmS ≠ tx.cmR) ∧
      (∀ tx u, (pool.run ops).all.get tx.hash = some tx → (pool.run ops).all.get u.hash = some u →
        tx ≠ u → ∀ k, tx.Creates k → ¬u.Creates k) ∧
      ∀ block : Block, block.transactions.Nodup →
        (∀ tx ∈ block.transactions, (pool.run ops).all.get tx.hash = some tx) →
        block.transactions.Pairwise fun tx u => ∀ k, tx.Creates k → ¬u.Creates k) := by
  have hapart := (inputs_run h ops).2 hkept
  have hiff := conflictFree_iff h ops hkept
  refine ⟨fun tx u htx hu hne => ⟨fun h0 h0' heq => ?_, fun h1 h1' heq => ?_⟩, hiff, fun hok => ?_⟩
  · exact hapart.spends tx u htx hu hne (cmHash tx.cmO) ⟨h0, rfl⟩ ⟨h0', congrArg cmHash heq.symm⟩
  · exact hapart.buys tx u htx hu hne h1 h1' (cmHash tx.cmV) (Or.inl ⟨h1, rfl⟩)
      (Or.inl ⟨h1', congrArg cmHash heq.symm⟩)
  · have hend : (pool.run ops).ledger.ConflictFree :=
      (h.history ops).2 ▸ hiff.mp hok _ List.prefix_rfl
    refine ⟨fun tx htx h0 heq => hend.outputs tx htx h0 (congrArg cmHash heq),
      fun tx u htx hu hne => (hend.apart tx u htx hu hne).2, fun block hnd hall => ?_⟩
    refine hnd.pairwise_of_forall_ne fun tx htx u hu hne => ?_
    exact (hend.apart tx u (hall tx htx) (hall u hu) hne).2

end

section

attribute [local instance] HashFns.plain

/-- The commitment `[8]` to 7, split as `[10]` is. -/
def ofOther (split : Transaction) : Transaction :=
  { split with
    accountNonce := 1, cmO := [8]
    evOEPs0 := [9], evOEPs1 := [9], evOEPs2 := [4], evOEPs3 := [11], bpSOr := [3] }

def twoCoinsWrite : BlockWrite :=
  childWrite default 0 [purchase10, { purchase10 with cmV := [8] }]

/-- Transfers of two coins: the second one is split as `split`. -/
def twoSplits (split : Transaction) : List PoolOp :=
  [.writeBlock twoCoinsWrite, .add split34 false, .add (ofOther split) false]

-- only the kernel evaluates the runs
attribute [local irreducible] twoSplits

theorem run_twoSplits : (genesisPool.run (twoSplits split16)).history =
      [.store twoCoinsWrite.block, .lock split34, .lock (ofOther split16)] ∧
    (genesisPool.run (twoSplits split16)).all.get split34.hash = some split34 ∧
    (genesisPool.run (twoSplits split16)).all.get (ofOther split16).hash =
      some (ofOther split16) := by
  decide +kernel

/-- Transfers of two coins into different outputs. -/
theorem conflictFree_run_twoSplits :
    let pool := genesisPool.run (twoSplits split16)
    pool.all.get split34.hash = some split34 ∧
    pool.all.get (ofOther split16).hash = some (ofOther split16) ∧
    (∀ k, split34.Creates k → ¬(ofOther split16).Creates k) ∧
    ∀ es, es <+: pool.history → (es.foldl Ledger.step genesisPool.ledger).ConflictFree := by
  intro pool
  obtain ⟨hhist, hpooled, hpooled'⟩ := run_twoSplits
  have hnone : ∀ u, ¬genesisPool.ledger.Has u := isEmpty_genesisPool.not_has
  obtain ⟨-, hiff, hend⟩ := conflictFree_run isEmpty_genesisPool (twoSplits split16) (by
    rw [hhist]
    exact ⟨fun u hu => absurd hu (hnone u), trivial, trivial, trivial⟩)
  have hfresh : Run.Along Ledger.step Ledger.FreshOutputs genesisPool.ledger pool.history := by
    rw [hhist]
    refine ⟨trivial, ⟨fun _ => by decide, fun u hu => absurd hu (hnone u)⟩,
      ⟨fun _ => by decide, fun u hu _ k => ?_⟩, trivial⟩
    rcases (Ledger.has_lock rfl).mp hu with rfl | hu
    · rintro (⟨h1, -⟩ | ⟨-, rfl | rfl⟩)
      · cases h1
      · decide
      · decide
    · exact absurd hu (hnone u)
  exact ⟨hpooled, hpooled', (hend hfresh).2.1 _ _ hpooled hpooled' (by decide), hiff.mp hfresh⟩

/-- Transfers of two coins into the same outputs are pooled together. -/
theorem pooled_with_same_outputs : genesisPool.IsEmpty ∧
      (∃ tx u, (genesisPool.run (twoSplits split34)).all.get tx.hash = some tx ∧
        (genesisPool.run (twoSplits split34)).all.get u.hash = some u ∧
        tx ≠ u ∧ tx.id = 0 ∧ u.id = 0 ∧ tx.cmS = u.cmS ∧ tx.cmR = u.cmR) := by
  obtain ⟨h₁, h₂⟩ : (genesisPool.run (twoSplits split34)).all.get split34.hash = some split34 ∧
      (genesisPool.run (twoSplits split34)).all.get (ofOther split34).hash =
        some (ofOther split34) := by
    decide +kernel
  exact ⟨isEmpty_genesisPool, split34, ofOther split34, h₁, h₂, by decide, rfl, rfl, rfl, rfl⟩

end

end GethComments.TxPool
