import GethComments.Core.PoolPartition

/-!
# Admission to the pool

What `add` leaves behind when it fails, and what becomes of a replacement.

* `add_error_trace`: a failed `add` changes nothing unless the pool is full, and then only the
  heap of prices, or what `Discard` has evicted;
* `replacement_accepted_iff`: a transfer of the same commitment at a higher price is accepted
  exactly if the commitment is neither locked nor spent.
-/

namespace GethComments.TxPool

section

variable [HashFns] {pool : TxPool} {tx : Transaction} {isLocal : Bool} {err : TxError}

/-! ## Failures -/

theorem insertTx_error (h : (pool.insertTx tx isLocal).2 = .error err) :
    (pool.insertTx tx isLocal).1 = pool ∧ err = .replaceUnderpriced := by
  rcases insertTx_cases pool tx isLocal with ⟨heq, -⟩ |
    ⟨journal, locals, old, list', ⟨list, -, -, -, heq⟩ | ⟨-, -, heq⟩⟩
  · rw [heq] at h ⊢
    cases h
    exact ⟨rfl, rfl⟩
  · rw [heq] at h
    cases h
  · rw [heq] at h
    cases h

theorem locals_removeAll (pool : TxPool) (txs : List Transaction) (outofbound : Bool) :
    (txs.foldl (fun pool tx => pool.removeTx tx.hash outofbound) pool).locals = pool.locals :=
  removeAll_induction (P := fun p => p.locals = pool.locals)
    (fun _ hash h => (closed_locals pool.locals).removeTx h hash outofbound) txs rfl

/-- **What a failed `add` leaves behind.** The local accounts stay, and so does the whole pool
with the commitment database unless it is full. If it is full and the transaction underpriced,
then only stale entries of the heap of prices have been popped and uncounted. If it is full and
the transaction is refused as a replacement, then what `Discard` has chosen for it is gone:
pooled transactions of remote accounts, each by `removeTx`. -/
theorem add_error_trace (h : (pool.add tx isLocal).2 = .error err) :
    (pool.add tx isLocal).1.locals = pool.locals ∧
    ((pool.add tx isLocal).1 = pool ∨
    (pool.IsFull ∧ err = .underpriced ∧ ∃ (priced : TxPricedList) (popped : List Transaction),
      (pool.add tx isLocal).1 = { pool with priced } ∧
      (popped ++ priced.items).Perm pool.priced.items ∧
      (∀ t ∈ popped, pool.all.get t.hash = none) ∧
      priced.stales = pool.priced.stales - popped.length) ∨
    (pool.IsFull ∧ err = .replaceUnderpriced ∧
      (pool.add tx isLocal).1 = (pool.discarded tx isLocal).1.foldl
        (fun pool tx => pool.removeTx tx.hash false)
        { pool with priced := (pool.discarded tx isLocal).2 } ∧
      ∀ t ∈ (pool.discarded tx isLocal).1,
        (pool.all.get t.hash).isSome ∧ pool.isLocal t = false)) := by
  unfold add at h ⊢
  cases hv : pool.validate tx with
  | some err' =>
    rw [hv] at h
    exact ⟨rfl, Or.inl rfl⟩
  | none =>
    rw [hv] at h
    dsimp only at h ⊢
    rcases makeRoom_cases pool tx isLocal with hroom | ⟨hfull, -, hroom⟩ |
      ⟨hfull, hroom⟩
    · rw [hroom] at h ⊢
      have heq := (insertTx_error h).1
      exact ⟨congrArg locals heq, Or.inl heq⟩
    · rw [hroom] at h ⊢
      cases h
      refine ⟨rfl, Or.inr (Or.inl ⟨hfull, rfl,
        (pool.priced.underpriced pool.all tx pool.isLocal).2, ?_⟩)⟩
      obtain ⟨popped, hspec⟩ := pool.priced.underpriced_spec pool.all tx pool.isLocal
      exact ⟨popped, rfl, hspec⟩
    · rw [hroom] at h ⊢
      obtain ⟨heq, rfl⟩ := insertTx_error h
      dsimp only
      rw [heq]
      exact ⟨locals_removeAll _ _ false, Or.inr (Or.inr ⟨hfull, rfl, rfl,
        fun t ht => TxPricedList.mem_discard ht⟩)⟩

end

section

attribute [local instance] HashFns.plain

def smallPool : TxPool :=
  newTxPool ⟨[], 0, 0, 1, 0, 1, Zkp.key23, Zkp.key23⟩
    (BlockChain.genesisChain default default none) (fun _ => some zeroAddress) none

/-- Another purchase under the signature of `purchase10`. -/
def purchaseAt (cmV : Bytes) (nonce : UInt64) (price : Nat) : Transaction :=
  { purchase10 with cmV := cmV, accountNonce := nonce, price := price }

/-- Two purchases, of which the first is the cheaper one. -/
def crowded : List PoolOp := [.add (purchaseAt [10] 0 1) false, .add (purchaseAt [8] 1 5) false]

/-- A replacement that is refused: what is left is the pool without the cheaper purchase. -/
theorem add_error_trace_crowded :
    ((smallPool.run crowded).add (purchaseAt [12] 1 5) false).2 = .error .replaceUnderpriced ∧
      ((smallPool.run crowded).discarded (purchaseAt [12] 1 5) false).1 = [purchaseAt [10] 0 1] ∧
      ((smallPool.run crowded).add (purchaseAt [12] 1 5) false).1 =
        { smallPool.run crowded with
          priced := ((smallPool.run crowded).discarded (purchaseAt [12] 1 5) false).2 }.removeTx
          (purchaseAt [10] 0 1).hash false := by
  obtain ⟨herr, hdrop, hpooled⟩ :
      ((smallPool.run crowded).add (purchaseAt [12] 1 5) false).2 = .error .replaceUnderpriced ∧
      ((smallPool.run crowded).discarded (purchaseAt [12] 1 5) false).1 = [purchaseAt [10] 0 1] ∧
      ((smallPool.run crowded).all.get (purchaseAt [10] 0 1).hash).isSome = true ∧
      (((smallPool.run crowded).add (purchaseAt [12] 1 5) false).1.all.get
        (purchaseAt [10] 0 1).hash).isSome = false := by
    decide +kernel
  refine ⟨herr, hdrop, ?_⟩
  obtain ⟨-, hsame | ⟨-, hcheap, -⟩ | ⟨-, -, hleft, -⟩⟩ := add_error_trace herr
  · rw [hsame, hpooled.1] at hpooled
    cases hpooled.2
  · cases hcheap
  · rw [hdrop, List.foldl_cons, List.foldl_nil] at hleft
    exact hleft

/-- A replacement that is refused has evicted another transaction before. -/
theorem add_error_evicts :
    ((smallPool.run crowded).add (purchaseAt [12] 1 5) false).2 = .error .replaceUnderpriced ∧
      ((smallPool.run crowded).all.get (purchaseAt [10] 0 1).hash).isSome = true ∧
      (((smallPool.run crowded).add (purchaseAt [12] 1 5) false).1.all.get
        (purchaseAt [10] 0 1).hash).isSome = false := by
  decide +kernel

end

/-! ## Replacement -/

section

variable [HashFns] {pool : TxPool} {tx : Transaction} {isLocal : Bool}

omit [HashFns] in
/-- A price that is higher by the configured percentage reaches the threshold of `Add`, also where
`int64` overflows. -/
theorem not_keepsOld {old tx : Transaction} {priceBump : UInt64} (hlt : old.price < tx.price)
    (hbump : old.price * (100 + priceBump.toNat) ≤ 100 * tx.price) :
    TxList.keepsOld old tx priceBump = false := by
  have hpercent : (100 + priceBump.toInt64).toInt ≤ (100 + priceBump.toNat : Nat) := by
    have hn : priceBump.toNat < 2 ^ 64 := priceBump.toNat_lt
    have hb : priceBump.toInt64.toInt = Int.bmod priceBump.toNat (2 ^ 64) :=
      BitVec.toInt_eq_toNat_bmod priceBump.toBitVec
    have h100 : (100 : Int64).toInt = 100 := by decide
    rw [Int64.toInt_add, hb, h100, Int.bmod_def, Int.bmod_def]
    split <;> split <;> omega
  have hthreshold : TxList.threshold old priceBump ≤ tx.price := by
    have hmul : (old.price : Int) * (100 + priceBump.toInt64).toInt ≤
        old.price * (100 + priceBump.toNat : Nat) :=
      Int.mul_le_mul_of_nonneg_left hpercent (Int.natCast_nonneg _)
    have hbump' : (old.price : Int) * (100 + priceBump.toNat : Nat) ≤ 100 * tx.price := by
      exact_mod_cast hbump
    unfold TxList.threshold
    omega
  simp only [TxList.keepsOld, Bool.or_eq_false_iff, decide_eq_false_iff_not]
  omega

/-- `tx` is a valid transfer of the commitment of the pooled transfer `old`, from the same account
and with the same nonce, at a price that is higher by the configured percentage. -/
structure Replacement (pool : TxPool) (old tx : Transaction) : Prop where
  pooled : pool.all.get old.hash = some old
  transfers : old.id = 0 ∧ tx.id = 0
  sender : pool.signer tx = pool.signer old
  nonce : tx.accountNonce = old.accountNonce
  cmO : tx.cmO = old.cmO
  price : old.price < tx.price
  bump : old.price * (100 + pool.config.priceBump.toNat) ≤ 100 * tx.price
  proofs : verifyzkp pool.config.regulator tx = none
  outputs : pool.chain.cmdb (cmHash tx.cmS) = none ∧ pool.chain.cmdb (cmHash tx.cmR) = none
  unknown : pool.all.get tx.hash = none
  valid : pool.validateTx tx = none

variable {pool0 : TxPool} {old : Transaction}

theorem Replacement.validate_eq_none_iff (h : Replacement pool old tx)
    (hrec : pool.ledger.Recorded) :
    pool.validate tx = none ↔ ¬Locked pool.chain.cmdb (cmHash tx.cmO) ∧
      ¬RawDB.Spent pool.chain.cmdb (cmHash tx.cmO) := by
  have hsome : (pool.chain.cmdb (cmHash tx.cmO)).isSome :=
    hrec.isSome h.pooled ((old.locks_iff _).mpr
      (Or.inr ⟨h.transfers.1, congrArg cmHash h.cmO.symm⟩))
  obtain ⟨r, hr⟩ := Option.isSome_iff_exists.mp hsome
  have hcm : pool.validate tx = none ↔ validateCM pool.chain.cmdb tx = none := by
    unfold validate
    rw [h.unknown]
    cases validateCM pool.chain.cmdb tx with
    | some err => simp
    | none => simp [h.transfers.2, h.proofs, h.valid]
  rw [hcm, validateCM_transfer_eq_none h.transfers.2]
  simp only [h.outputs, and_true, Locked, RawDB.Spent, hr, Option.some.injEq, exists_eq_left']
  obtain ⟨cm, spent, lock⟩ := r
  cases spent <;> cases lock <;> simp [newDefaultCM]

theorem makeRoom_eq_none (hc : pool.priced.Covers pool.all fun _ => False)
    (hold : pool.all.get old.hash = some old) (hlt : old.price < tx.price) (isLocal : Bool) :
    (pool.makeRoom tx isLocal).2 = none := by
  rcases makeRoom_cases pool tx isLocal with hroom | ⟨-, hunder, -⟩ | ⟨-, hroom⟩
  · rw [hroom]
  · rw [TxPricedList.underpriced_eq_false hc hold hlt pool.isLocal] at hunder
    cases hunder
  · rw [hroom]

theorem Reaches.eq_of_slot {K : CMEvent → Prop} {F : List Transaction} {t u : Transaction}
    {p : Place} {a : Address} {n : UInt64} (h : Reaches K pool0 F pool)
    (ht : pool.core.slots p a n = some t) (hF : u ∉ F) (hu : pool.all.get u.hash = some u)
    (hsig : pool.signer u = some a) (hn : u.accountNonce = n) : u = t := by
  obtain ⟨q, b, hslot⟩ := (h.inv.covered u hu).resolve_left hF
  have hb : b = a := Option.some.inj ((h.inv.listed q b _ u hslot).1.symm.trans hsig)
  subst hb
  subst hn
  by_cases hq : q = p
  · subst hq
    exact Option.some.inj (hslot.symm.trans ht)
  · have hnone := h.inv.eq_none_of_ne ht hq
    rw [hslot] at hnone
    cases hnone

/-- Over a slot that is free, or holds a transaction that is not kept, `insertTx` succeeds, and
the new transaction enters last. -/
theorem insertTx_ok (hknown : pool.all.get tx.hash = none)
    (hslot : ∀ p t, pool.core.slots p (pool.sender tx) tx.accountNonce = some t →
      TxList.keepsOld t tx pool.config.priceBump = false) (isLocal : Bool) :
    (pool.insertTx tx isLocal).2.isOk = true ∧ ∃ pool' : TxPool,
      (pool.insertTx tx isLocal).1.all = pool'.all.add tx ∧
      (pool.insertTx tx isLocal).1.chain.cmdb = processCM pool'.chain.cmdb tx ∧
      ∀ u, pool'.all.get u.hash = some u → pool.all.get u.hash = some u := by
  -- a list whose transaction of the nonce, if any, is not kept
  have hadd : ∀ list : TxList, (∀ t, list.get tx.accountNonce = some t →
      TxList.keepsOld t tx pool.config.priceBump = false) →
      list.add tx pool.config.priceBump = some (list.get tx.accountNonce, list.insert tx) := by
    intro list hl
    unfold TxList.add
    cases hget : list.get tx.accountNonce with
    | none => rfl
    | some t =>
      dsimp only
      rw [if_neg (by simp [hl t hget])]
  have hdrop : ∀ (pool' : TxPool) old u, (pool'.dropOld old).all.get u.hash = some u →
      pool'.all.get u.hash = some u := by
    intro pool' old u hu
    cases old with
    | none => exact hu
    | some old => exact TxPricedList.get_remove_eq_some hu
  rcases insertTx_cases pool tx isLocal with ⟨-, ⟨list, hl, hnone⟩ | hnone⟩ |
    ⟨journal, locals, old, list', ⟨list, -, -, -, heq⟩ | ⟨-, -, heq⟩⟩
  · rw [hadd list fun t ht =>
      hslot .pending t ((congrFun (listAt_of_lookup hl) _).trans ht)] at hnone
    cases hnone
  · rw [hadd _ fun t ht => hslot .queued t (by rwa [get_getD] at ht)] at hnone
    cases hnone
  · rw [heq]
    exact ⟨rfl, (pool.setPending _ list').dropOld old, rfl, rfl, hdrop _ _⟩
  · -- the transaction is not known yet, so that it is locked
    have hnone : (((pool.setQueue (pool.sender tx) list').dropOld old).all.get tx.hash).isNone := by
      rw [get_dropOld_eq_none (show (pool.setQueue _ list').all.get tx.hash = none from hknown)]
      rfl
    rw [heq, lockNew, if_pos hnone]
    exact ⟨rfl, (pool.setQueue _ list').dropOld old, rfl, rfl, hdrop _ _⟩

/-- **Replacement of a transfer.** In every reachable state, a replacement is accepted exactly if
the commitment is neither locked nor spent; it is then pooled, the old transfer is not, and the
commitment is locked. -/
theorem replacement_accepted_iff {config : TxPoolConfig} {chain : BlockChain}
    {signer : Transaction → Option Address} {journal : Option (List Transaction)}
    (h : Reachable (newTxPool config chain signer journal) pool) (hr : Replacement pool old tx)
    (isLocal : Bool) :
    ((pool.add tx isLocal).2.isOk = true ↔ ¬Locked pool.chain.cmdb (cmHash tx.cmO) ∧
      ¬RawDB.Spent pool.chain.cmdb (cmHash tx.cmO)) ∧
    ((pool.add tx isLocal).2.isOk = true → (pool.add tx isLocal).1.all.get tx.hash = some tx ∧
      (pool.add tx isLocal).1.all.get old.hash = none ∧
      Locked (pool.add tx isLocal).1.chain.cmdb (cmHash tx.cmO)) := by
  have hs := h.sound (sound_newTxPool config chain signer journal)
  have hvalid := hr.validate_eq_none_iff hs.reaches.inv.recorded
  cases hv : pool.validate tx with
  | some err =>
    have hno : (pool.add tx isLocal).2.isOk = false := by
      unfold add
      rw [hv]
      rfl
    rw [← hvalid, hv, hno]
    exact ⟨by simp, by simp⟩
  | none =>
    rw [← hvalid, hv]
    obtain ⟨hlegal, addr, hsig, -⟩ := validate_eq_none hv
    -- what is found at the nonce after others have been evicted can only be the old transfer
    have hroom := (hs.reaches.rebase Ledger.IsUnlock).makeRoom (fun _ => trivial) tx isLocal
    have hnone := makeRoom_eq_none hs.covers hr.pooled hr.price isLocal
    have hfollow := follows_makeRoom pool tx isLocal
    have hadd : pool.add tx isLocal = (pool.makeRoom tx isLocal).1.insertTx tx isLocal := by
      unfold add
      rw [hv]
      dsimp only
      generalize pool.makeRoom tx isLocal = r at hnone
      obtain ⟨pool', res⟩ := r
      cases hnone
      rfl
    have hlegal' := hroom.evolves.legal_lock hs.reaches.inv.recorded hlegal
    have hsub : ∀ t, (pool.makeRoom tx isLocal).1.all.get t.hash = some t →
        pool.all.get t.hash = some t := fun t ht => hroom.evolves.has ht
    generalize (pool.makeRoom tx isLocal).1 = pool' at hroom hfollow hadd hlegal' hsub
    have hsig' : pool'.signer tx = some addr := hfollow.signer ▸ hsig
    have hsender : pool'.sender tx = addr := by simp [TxPool.sender, hsig']
    have hslot : ∀ p t, pool'.core.slots p (pool'.sender tx) tx.accountNonce = some t →
        TxList.keepsOld t tx pool'.config.priceBump = false := by
      intro p t ht
      rw [hsender] at ht
      obtain ⟨hts, htn, hthas⟩ := hroom.inv.listed p addr _ t ht
      have hpooled := hsub t hthas
      obtain ⟨q, b, hq⟩ := (hs.reaches.inv.covered old hr.pooled).resolve_left List.not_mem_nil
      have hold : pool.signer old = some b := (hs.reaches.inv.listed q b _ old hq).1
      have hb : b = addr := Option.some.inj (hold.symm.trans (hr.sender.symm.trans hsig))
      subst hb
      have hts' : pool.signer t = some b := hfollow.signer ▸ hts
      have heq : t = old := hs.reaches.eq_of_slot hq List.not_mem_nil hpooled hts'
        (htn.trans hr.nonce)
      rw [heq, hfollow.config]
      exact not_keepsOld hr.price hr.bump
    obtain ⟨hok, pool₁, hall, hcm, hpool₁⟩ := insertTx_ok hlegal'.2 hslot isLocal
    have hreach : Reaches Legally pool [] (pool'.insertTx tx isLocal).1 :=
      ((hs.reaches.rebase Legally).trans hroom fun _ _ => trivial).insertTx (fun _ => trivial)
        trivial hlegal' hsig' isLocal
    have htx : (pool'.insertTx tx isLocal).1.all.get tx.hash = some tx := by
      rw [hall, TxLookup.get_add, Function.update_self]
    have hne : old.hash ≠ tx.hash := by
      intro heq
      have hpooled := hr.pooled
      rw [heq, hr.unknown] at hpooled
      cases hpooled
    rw [hadd]
    refine ⟨by simp [hok], fun _ => ⟨htx, ?_, ?_⟩⟩
    · rw [Option.eq_none_iff_forall_ne_some]
      intro u hu
      have huh := TxLookup.hash_of_get hu
      have hu₁ : pool₁.all.get u.hash = some u := by
        rw [hall, TxLookup.get_add, Function.update_of_ne hne] at hu
        rw [huh, hu]
      have hpooled := hsub u (hpool₁ u hu₁)
      rw [huh, hr.pooled] at hpooled
      cases hpooled
      -- both would be in the slot of the nonce
      obtain ⟨q, b, hq⟩ := (hreach.inv.covered tx htx).resolve_left List.not_mem_nil
      have htxb : pool.signer tx = some b := hreach.signer ▸ (hreach.inv.listed q b _ tx hq).1
      have holdb : (pool'.insertTx tx isLocal).1.signer old = some b := by
        rw [hreach.signer, ← hr.sender]
        exact htxb
      have heq := hreach.eq_of_slot hq List.not_mem_nil hu holdb hr.nonce.symm
      exact hne (congrArg Transaction.hash heq)
    · rw [hcm, locked_processCM ((tx.locks_iff _).mpr (Or.inr ⟨hr.transfers.2, rfl⟩))]
      exact Or.inl rfl

end

section

attribute [local instance] HashFns.plain

/-- The transfer `split34` at a higher price. -/
def dearSplit : Transaction := { split34 with price := split34.price + 10 }

/-- A second block that mints `[10]` comes while the transfer waits, and releases its lock. -/
def mintedAgain : List PoolOp :=
  waiting ++ [.writeBlock (childWrite mintWrite.block.header 0 [purchase10])]

theorem reachable_run (pool0 : TxPool) (ops : List PoolOp) : Reachable pool0 (pool0.run ops) := by
  suffices h : ∀ pool, Reachable pool0 pool → Reachable pool0 (pool.run ops) from h _ .refl
  induction ops with
  | nil => exact fun _ h => h
  | cons op ops ih => exact fun _ h => ih _ (h.step op)

attribute [local irreducible] mintedAgain

/-- What is evaluated of a pool for the replacement. -/
abbrev Checks (pool : TxPool) : Prop :=
  pool.all.get split34.hash = some split34 ∧ pool.signer dearSplit = pool.signer split34 ∧
    verifyzkp pool.config.regulator dearSplit = none ∧
    (pool.chain.cmdb (cmHash dearSplit.cmS) = none ∧
      pool.chain.cmdb (cmHash dearSplit.cmR) = none) ∧
    pool.all.get dearSplit.hash = none ∧ pool.validateTx dearSplit = none

theorem replacement_of_checks {pool : TxPool} (h : Checks pool) :
    Replacement pool split34 dearSplit := by
  obtain ⟨hpooled, hsig, hzkp, hcm, hunknown, hvalid⟩ := h
  refine ⟨hpooled, ⟨rfl, rfl⟩, hsig, rfl, rfl, by decide, ?_, hzkp, hcm, hunknown, hvalid⟩
  have hzero : split34.price = 0 := rfl
  simp [hzero]

/-- The commitment has been released, and the replacement is accepted. -/
theorem replacement_accepted_iff_mintedAgain :
    (((genesisPool.run mintedAgain).add dearSplit false).2.isOk = true ↔
      ¬Locked (genesisPool.run mintedAgain).chain.cmdb (cmHash dearSplit.cmO) ∧
      ¬RawDB.Spent (genesisPool.run mintedAgain).chain.cmdb (cmHash dearSplit.cmO)) ∧
    (genesisPool.run mintedAgain).all.get split34.hash = some split34 ∧
    ((genesisPool.run mintedAgain).add dearSplit false).1.all.get split34.hash = none := by
  obtain ⟨hchecks, hok⟩ : Checks (genesisPool.run mintedAgain) ∧
      ((genesisPool.run mintedAgain).add dearSplit false).2.isOk = true := by
    decide +kernel
  have hmain := replacement_accepted_iff (reachable_run genesisPool mintedAgain)
    (replacement_of_checks hchecks) false
  exact ⟨hmain.1, hchecks.1, (hmain.2 hok).2.1⟩

/-- While the transfer waits, its own lock stops the replacement. -/
theorem replacement_refused : Replacement (genesisPool.run waiting) split34 dearSplit ∧
      ((genesisPool.run waiting).add dearSplit false).2 = .error .invalidCM := by
  obtain ⟨hchecks, herr⟩ : Checks (genesisPool.run waiting) ∧
      ((genesisPool.run waiting).add dearSplit false).2 = .error .invalidCM := by
    decide +kernel
  exact ⟨replacement_of_checks hchecks, herr⟩

end

end GethComments.TxPool
