import GethComments.Core.TxPool

/-!
# Induction over the loops of the pool

What one round of a loop keeps, the whole loop keeps. One rule for each loop: the removal of
several transactions, promotion, demotion, the two truncations and the admission of a list. The
admission of one transaction has a rule for each of its parts, and what no single move of a
transaction changes (`Closed`) is not changed by any operation that takes transactions out of
the pool or moves them in it.
-/

namespace GethComments.TxPool

variable [HashFns] {P : TxPool → Prop} {pool : TxPool}

theorem removeAll_induction {outofbound : Bool}
    (hstep : ∀ pool hash, P pool → P (pool.removeTx hash outofbound)) (txs : List Transaction)
    (h : P pool) : P (txs.foldl (fun pool tx => pool.removeTx tx.hash outofbound) pool) := by
  induction txs generalizing pool with
  | nil => exact h
  | cons t txs ih => exact ih (hstep pool t.hash h)

theorem promoteExecutables_induction
    (hstep : ∀ pool addr time, P pool → P (pool.promoteAccount addr time).1)
    (now : Address → Nat) (accounts : List Address) (h : P pool) :
    P (pool.promoteExecutables now accounts).1 := by
  induction accounts generalizing pool with
  | nil => exact h
  | cons addr accounts ih => exact ih (hstep pool addr (now addr) h)

theorem demoteUnexecutables_induction (hstep : ∀ pool addr, P pool → P (pool.demoteAccount addr))
    (order : List Address) (h : P pool) : P (pool.demoteUnexecutables order) := by
  unfold demoteUnexecutables
  induction visit pool.pending.keys order generalizing pool with
  | nil => exact h
  | cons addr accounts ih => exact ih (hstep pool addr h)

section TruncatePending

variable (hstep : ∀ pool addr, P pool → P (pool.capOne addr))
include hstep

variable {s : TxPool × UInt64}

theorem capRound_induction (offenders : List Address) (h : P s.1) : P (capRound offenders s).1 := by
  unfold capRound
  induction offenders generalizing s with
  | nil => exact h
  | cons addr offenders ih => exact ih (hstep s.1 addr h)

theorem capRounds_induction (offenders : List Address) (last : Address) (threshold fuel : Nat)
    (h : P s.1) : P (capRounds offenders last threshold fuel s).1 := by
  induction fuel generalizing s with
  | zero => exact h
  | succ fuel ih =>
    unfold capRounds
    split
    · exact ih (capRound_induction hstep offenders h)
    · exact h

theorem equalize_induction (rounds fuel : Nat) (spammers : List (Address × Nat))
    (offenders : List Address) (h : P s.1) :
    P (equalize rounds fuel spammers offenders s).2.1 := by
  induction fuel generalizing spammers offenders s with
  | zero => exact h
  | succ fuel ih =>
    unfold equalize
    split
    · cases popSpammer spammers with
      | none => exact h
      | some r =>
        cases offenders with
        | nil => exact ih r.2 [r.1] h
        | cons last offenders => exact ih r.2 _ (capRounds_induction hstep _ last _ rounds h)
    · exact h

theorem truncatePending_induction (order : List Address) (h : P pool) :
    P (pool.truncatePending order) := by
  unfold truncatePending
  dsimp only
  split
  · exact h
  · generalize hs : equalize _ _ _ _ _ = r
    have hr : P r.2.1 := hs ▸ equalize_induction hstep _ _ _ _ h
    obtain ⟨offenders, s⟩ := r
    cases offenders with
    | nil => exact hr
    | cons last offenders => exact capRounds_induction hstep _ last _ _ hr

end TruncatePending

theorem truncateQueue_induction (hstep : ∀ pool hash, P pool → P (pool.removeTx hash true))
    (order : List Address) (h : P pool) : P (pool.truncateQueue order) := by
  have hqueued : ∀ (addresses : List Address) (drop : UInt64) (pool : TxPool), P pool →
      P (truncateQueued addresses drop pool) := by
    intro addresses
    induction addresses with
    | nil => exact fun _ _ h => h
    | cons addr addresses ih =>
      intro drop pool h
      unfold truncateQueued
      split
      · exact h
      · dsimp only
        split
        · exact ih _ _ (removeAll_induction hstep _ h)
        · exact removeAll_induction hstep _ h
  unfold truncateQueue
  dsimp only
  split
  · exact h
  · exact hqueued _ _ _ h

/-! ## Admission -/

/-- There are as many transactions as the two global limits allow. -/
def IsFull (pool : TxPool) : Prop :=
  pool.config.globalSlots + pool.config.globalQueue ≤ UInt64.ofNat pool.all.count

/-- What `Discard` returns when `add` makes room for a transaction: the transactions to evict, and
the heap of prices without them. A local transaction is not compared with the heap before. -/
def discarded (pool : TxPool) (tx : Transaction) (isLocal : Bool) :
    List Transaction × TxPricedList :=
  (if isLocal then pool.priced else (pool.priced.underpriced pool.all tx pool.isLocal).2).discard
    pool.all (pool.all.slots - (pool.config.globalSlots + pool.config.globalQueue).toInt64.toInt +
      numSlots tx) pool.isLocal

theorem makeRoom_cases (pool : TxPool) (tx : Transaction) (isLocal : Bool) :
    pool.makeRoom tx isLocal = (pool, none) ∨
    (pool.IsFull ∧ (pool.priced.underpriced pool.all tx pool.isLocal).1 = true ∧
      pool.makeRoom tx isLocal =
        ({ pool with priced := (pool.priced.underpriced pool.all tx pool.isLocal).2 },
          some .underpriced)) ∨
    (pool.IsFull ∧ pool.makeRoom tx isLocal = ((pool.discarded tx isLocal).1.foldl
        (fun pool tx => pool.removeTx tx.hash false)
        { pool with priced := (pool.discarded tx isLocal).2 }, none)) := by
  by_cases hfull : UInt64.ofNat pool.all.count < pool.config.globalSlots + pool.config.globalQueue
  · left
    unfold makeRoom
    dsimp only
    rw [if_pos hfull]
  · have hfull' : pool.IsFull := UInt64.not_lt.mp hfull
    right
    unfold makeRoom
    dsimp only
    rw [if_neg hfull]
    cases isLocal with
    | true => exact Or.inr ⟨hfull', rfl⟩
    | false =>
      rw [if_neg Bool.false_ne_true]
      cases hu : (pool.priced.underpriced pool.all tx pool.isLocal).1 with
      | true => exact Or.inl ⟨hfull', rfl, rfl⟩
      | false => exact Or.inr ⟨hfull', rfl⟩

theorem makeRoom_induction (hpriced : ∀ pool priced, P pool → P { pool with priced })
    (hremove : ∀ pool hash, P pool → P (pool.removeTx hash false)) (tx : Transaction)
    (isLocal : Bool) (h : P pool) : P (pool.makeRoom tx isLocal).1 := by
  rcases makeRoom_cases pool tx isLocal with hroom | ⟨-, -, hroom⟩ | ⟨-, hroom⟩
  · rwa [hroom]
  · rw [hroom]
    exact hpriced _ _ h
  · rw [hroom]
    exact removeAll_induction hremove _ (hpriced _ _ h)

theorem enqueueTx_induction {hash : Hash} {tx : Transaction} (h : P pool)
    (hnew : ∀ old list, ((pool.queue.lookup (pool.sender tx)).getD (newTxList false)).add tx
      pool.config.priceBump = some (old, list) →
        P (((pool.setQueue (pool.sender tx) list).dropOld old).lockNew hash tx)) :
    P (pool.enqueueTx hash tx).1 := by
  unfold enqueueTx
  dsimp only
  split
  · exact h
  · exact hnew _ _ ‹_›

theorem journalTx_eq (pool : TxPool) (addr : Address) (tx : Transaction) :
    ∃ journal, pool.journalTx addr tx = { pool with journal } := by
  unfold journalTx
  split
  · exact ⟨_, rfl⟩
  · exact ⟨pool.journal, rfl⟩

theorem insertTx_cases (pool : TxPool) (tx : Transaction) (isLocal : Bool) :
    let addr := pool.sender tx
    let priceBump := pool.config.priceBump
    let queued := (pool.queue.lookup addr).getD (newTxList false)
    (pool.insertTx tx isLocal = (pool, .error .replaceUnderpriced) ∧
      ((∃ list, pool.pending.lookup addr = some list ∧ list.add tx priceBump = none) ∨
        queued.add tx priceBump = none)) ∨
    ∃ journal locals old list',
      (∃ list, pool.pending.lookup addr = some list ∧ list.overlaps tx = true ∧
        list.add tx priceBump = some (old, list') ∧ pool.insertTx tx isLocal =
          ({ ((pool.setPending addr list').dropOld old).lockTx tx with journal, locals },
            .ok old.isSome)) ∨
      ((pool.pending.lookup addr).filter (fun list => list.overlaps tx) = none ∧
        queued.add tx priceBump = some (old, list') ∧ pool.insertTx tx isLocal =
          ({ ((pool.setQueue addr list').dropOld old).lockNew tx.hash tx with journal, locals },
            .ok old.isSome)) := by
  intro addr priceBump queued
  unfold insertTx enqueueTx
  dsimp only
  cases hp : (pool.pending.lookup addr).filter fun list => list.overlaps tx with
  | some list =>
    obtain ⟨hl, hover⟩ := Option.filter_eq_some_iff.mp hp
    dsimp only
    cases ha : list.add tx priceBump with
    | none => exact Or.inl ⟨rfl, Or.inl ⟨list, hl, ha⟩⟩
    | some r =>
      obtain ⟨journal, heq⟩ :=
        journalTx_eq (((pool.setPending addr r.2).dropOld r.1).lockTx tx) addr tx
      exact Or.inr ⟨journal, _, r.1, r.2, Or.inl ⟨list, hl, hover, ha, by dsimp only; rw [heq]⟩⟩
  | none =>
    dsimp only
    cases ha : queued.add tx priceBump with
    | none => exact Or.inl ⟨rfl, Or.inr rfl⟩
    | some r =>
      dsimp only
      generalize hnew : ((pool.setQueue addr r.2).dropOld r.1).lockNew tx.hash tx = new
      have hlocal : ∃ locals, (if isLocal = true then new.addLocal addr else new) =
          { new with locals } := by
        unfold addLocal
        split_ifs
        · exact ⟨new.locals, rfl⟩
        · exact ⟨_, rfl⟩
        · exact ⟨new.locals, rfl⟩
      obtain ⟨locals, hlocal⟩ := hlocal
      obtain ⟨journal, heq⟩ := journalTx_eq { new with locals } addr tx
      refine Or.inr ⟨journal, locals, r.1, r.2, Or.inr ⟨rfl, rfl, ?_⟩⟩
      rw [hlocal, heq, hnew]

theorem insertTx_induction {tx : Transaction}
    (hbooks : ∀ pool journal locals, P pool → P { pool with journal, locals }) (h : P pool)
    (hpending : ∀ list old list', pool.pending.lookup (pool.sender tx) = some list →
      list.overlaps tx = true → list.add tx pool.config.priceBump = some (old, list') →
        P (((pool.setPending (pool.sender tx) list').dropOld old).lockTx tx))
    (hqueue : (pool.pending.lookup (pool.sender tx)).filter (fun list => list.overlaps tx) = none →
      P (pool.enqueueTx tx.hash tx).1) (isLocal : Bool) : P (pool.insertTx tx isLocal).1 := by
  rcases insertTx_cases pool tx isLocal with ⟨heq, -⟩ |
    ⟨journal, locals, old, list', ⟨list, hl, hover, ha, heq⟩ | ⟨hnone, ha, heq⟩⟩
  · rwa [heq]
  · rw [heq]
    exact hbooks _ _ _ (hpending list old list' hl hover ha)
  · have hq := hqueue hnone
    unfold enqueueTx at hq
    dsimp only at hq
    rw [ha] at hq
    rw [heq]
    exact hbooks _ _ _ hq

theorem add_of_validateCM {tx : Transaction} {err : TxError}
    (h : validateCM pool.chain.cmdb tx = some err) (isLocal : Bool) :
    pool.add tx isLocal =
      (pool, .error (if (pool.all.get tx.hash).isSome then .alreadyKnown else err)) := by
  unfold add validate
  rw [h]
  by_cases hknown : (pool.all.get tx.hash).isSome = true
  · simp only [if_pos hknown]
  · simp only [if_neg hknown]

theorem add_induction {tx : Transaction} {isLocal : Bool} (h : P pool)
    (hroom : pool.validate tx = none → P (pool.makeRoom tx isLocal).1)
    (hinsert : pool.validate tx = none → P (pool.makeRoom tx isLocal).1 →
      P ((pool.makeRoom tx isLocal).1.insertTx tx isLocal).1) : P (pool.add tx isLocal).1 := by
  unfold add
  split
  · exact h
  · next hv =>
    have hins := hinsert hv (hroom hv)
    generalize pool.makeRoom tx isLocal = r at hroom hins ⊢
    obtain ⟨pool', res⟩ := r
    cases res with
    | some err => exact hroom hv
    | none => exact hins

theorem addTxsLocked_cons (pool : TxPool) (isLocal : Bool) (tx : Transaction)
    (txs : List Transaction) :
    let next := (pool.add tx isLocal).1.addTxsLocked isLocal txs
    (pool.addTxsLocked isLocal (tx :: txs)).1 = next.1 ∧
      (pool.addTxsLocked isLocal (tx :: txs)).2.1 = (match (pool.add tx isLocal).2 with
        | .error err => some err
        | .ok _ => none) :: next.2.1 := by
  rw [addTxsLocked]
  rcases pool.add tx isLocal with ⟨pool', err | replaced⟩ <;> exact ⟨rfl, rfl⟩

theorem addTxsLocked_induction {isLocal : Bool} (txs : List Transaction)
    (hstep : ∀ pool, ∀ tx ∈ txs, P pool → P (pool.add tx isLocal).1) (h : P pool) :
    P (pool.addTxsLocked isLocal txs).1 := by
  induction txs generalizing pool with
  | nil => exact h
  | cons tx txs ih =>
    rw [(addTxsLocked_cons pool isLocal tx txs).1]
    exact ih (fun pool u hu => hstep pool u (List.mem_cons_of_mem tx hu))
      (hstep pool tx List.mem_cons_self h)

theorem reset_induction (h : P pool) (hhead : ∀ statedb nonces gas, P { pool with
      currentState := statedb, pendingNonces := nonces, currentMaxGas := gas })
    (hadd : ∀ pool tx, P pool → P (pool.add tx false).1) (oldHead : Option Header)
    (newHead : Header) : P (pool.reset oldHead newHead) := by
  unfold reset
  split
  · exact h
  · split
    · exact h
    · exact addTxsLocked_induction _ (fun pool tx _ => hadd pool tx) (hhead _ _ _)

/-! ## Single moves -/

/-- `P` does not depend on the lists, and is kept when one transaction enters or leaves. -/
structure Closed (P : TxPool → Prop) : Prop where
  lockTx : ∀ pool tx, P pool → P (pool.lockTx tx)
  unlockTx : ∀ pool tx, P pool → P (pool.unlockTx tx)
  forgetTx : ∀ pool tx, P pool → P (pool.forgetTx tx)
  pricedRemoved : ∀ pool count, P pool → P (pool.pricedRemoved count)
  lists : ∀ pool pending queue beats pendingNonces, P pool →
    P { pool with pending, queue, beats, pendingNonces }

namespace Closed

variable (hc : Closed P) (h : P pool)

include hc h

section

variable (addr : Address) (list : TxList)
include addr list

theorem setPending : P (pool.setPending addr list) :=
  hc.lists pool _ _ _ _ h

theorem setQueue : P (pool.setQueue addr list) :=
  hc.lists pool _ _ _ _ h

theorem deletePendingIfEmpty : P (pool.deletePendingIfEmpty addr list) := by
  unfold TxPool.deletePendingIfEmpty
  split
  · exact hc.lists pool _ _ _ _ h
  · exact h

theorem deleteQueueIfEmpty : P (pool.deleteQueueIfEmpty addr list) := by
  unfold TxPool.deleteQueueIfEmpty
  split
  · exact hc.lists pool _ _ _ _ h
  · exact h

end

theorem dropOld (old : Option Transaction) : P (pool.dropOld old) := by
  cases old with
  | none => exact h
  | some old => exact hc.pricedRemoved _ 1 (hc.unlockTx pool old h)

theorem lockNew (hash : Hash) (tx : Transaction) : P (pool.lockNew hash tx) := by
  unfold TxPool.lockNew
  split
  · exact hc.lockTx pool tx h
  · exact h

theorem unlockAll (txs : List Transaction) : P (pool.unlockAll txs) := by
  induction txs generalizing pool with
  | nil => exact h
  | cons t txs ih => exact ih (hc.unlockTx pool t h)

theorem forgetAll (txs : List Transaction) : P (pool.forgetAll txs) := by
  induction txs generalizing pool with
  | nil => exact h
  | cons t txs ih => exact ih (hc.forgetTx pool t h)

theorem enqueueTx (hash : Hash) (tx : Transaction) : P (pool.enqueueTx hash tx).1 :=
  enqueueTx_induction h fun old list _ =>
    hc.lockNew (hc.dropOld (hc.setQueue h _ list) old) hash tx

theorem enqueueAll (txs : List Transaction) : P (pool.enqueueAll txs) := by
  induction txs generalizing pool with
  | nil => exact h
  | cons t txs ih => exact ih (hc.enqueueTx h t.hash t)

section

variable (addr : Address)
include addr

theorem promoteTx (hash : Hash) (tx : Transaction) (now : Nat) :
    P (pool.promoteTx addr hash tx now).1 := by
  unfold TxPool.promoteTx
  dsimp only
  split
  · exact hc.pricedRemoved _ 1 (hc.unlockTx pool tx h)
  · next old list _ =>
    exact hc.lists _ _ _ _ _ (hc.lockNew (hc.dropOld (hc.setPending h addr list) old) hash tx)

theorem promoteAll (now : Nat) (txs : List Transaction) : P (pool.promoteAll addr now txs).1 := by
  induction txs generalizing pool with
  | nil => exact h
  | cons t txs ih => exact ih (hc.promoteTx h addr t.hash t now)

theorem promoteAccount (now : Nat) : P (pool.promoteAccount addr now).1 := by
  unfold TxPool.promoteAccount
  cases pool.queue.lookup addr with
  | none => exact h
  | some list =>
    refine hc.deleteQueueIfEmpty (hc.pricedRemoved _ _ ?_) addr _
    refine hc.unlockAll (hc.setQueue ?_ addr _) _
    refine hc.promoteAll (hc.setQueue ?_ addr _) addr now _
    refine hc.unlockAll (hc.setQueue ?_ addr _) _
    exact hc.unlockAll (hc.setQueue h addr _) _

theorem postponeGapped (list : TxList) (nonce : UInt64) :
    P (pool.postponeGapped addr list nonce).1 := by
  unfold TxPool.postponeGapped
  split
  · exact hc.enqueueAll (hc.setPending h addr _) _
  · exact h

theorem demoteAccount : P (pool.demoteAccount addr) := by
  unfold TxPool.demoteAccount
  cases pool.pending.lookup addr with
  | none => exact h
  | some list =>
    refine hc.deletePendingIfEmpty (hc.postponeGapped ?_ addr _ _) addr _
    refine hc.enqueueAll (hc.pricedRemoved _ _ ?_) _
    refine hc.unlockAll (hc.setPending ?_ addr _) _
    exact hc.forgetAll (hc.setPending h addr _) _

theorem capOne : P (pool.capOne addr) := by
  unfold TxPool.capOne
  cases pool.pending.lookup addr with
  | none => exact h
  | some list =>
    refine hc.pricedRemoved _ _ (hc.lists _ _ _ _ _ ?_)
    exact hc.unlockAll (hc.setPending h addr _) _

theorem removeListed (tx : Transaction) : P (pool.removeListed addr tx) := by
  unfold TxPool.removeListed
  split
  · unfold removeQueued
    split
    · exact h
    · exact hc.deleteQueueIfEmpty (hc.setQueue h addr _) addr _
  · refine hc.lists _ _ _ _ _ (hc.enqueueAll ?_ _)
    exact hc.deletePendingIfEmpty (hc.setPending h addr _) addr _

end

theorem removeTx (hash : Hash) (outofbound : Bool) : P (pool.removeTx hash outofbound) := by
  unfold TxPool.removeTx
  split
  · exact h
  · next tx _ =>
    refine hc.removeListed ?_ _ tx
    split
    · exact hc.pricedRemoved _ 1 (hc.unlockTx pool tx h)
    · exact hc.unlockTx pool tx h

end Closed

end GethComments.TxPool
