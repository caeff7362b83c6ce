import GethComments.Core.PoolInduction
import GethComments.Core.PoolRefinement

/-!
# The operations of the pool

One rule for each operation of the pool: from a pool that has been reached with no transaction
in flight it reaches another one.

* `Reaches.promoteExecutables`, `Reaches.removeTx`, `Reaches.truncatePending`,
  `Reaches.truncateQueue`: transactions only leave, with `reorgCM`;
* `Reaches.demoteUnexecutables`: they also leave without it;
* `Reaches.add`, `Reaches.reset`: they also enter.
-/

namespace GethComments.TxPool

open TxList

variable [HashFns] {K : CMEvent → Prop} {pool0 pool : TxPool} {F removed txs : List Transaction}
  {addr : Address} {list list' : TxList} {tx : Transaction}

/-! ## Lists that do not change -/

section

variable (pool)

section

variable (txs)

@[simp] theorem queue_unlockAll : (pool.unlockAll txs).queue = pool.queue := by
  induction txs generalizing pool with
  | nil => rfl
  | cons t txs ih => exact ih (pool.unlockTx t)

@[simp] theorem pending_unlockAll : (pool.unlockAll txs).pending = pool.pending := by
  induction txs generalizing pool with
  | nil => rfl
  | cons t txs ih => exact ih (pool.unlockTx t)

@[simp] theorem pending_forgetAll : (pool.forgetAll txs).pending = pool.pending := by
  induction txs generalizing pool with
  | nil => rfl
  | cons t txs ih => exact ih (pool.forgetTx t)

end

theorem pending_dropOld (old : Option Transaction) : (pool.dropOld old).pending = pool.pending := by
  cases old <;> rfl

theorem queue_dropOld (old : Option Transaction) : (pool.dropOld old).queue = pool.queue := by
  cases old <;> rfl

theorem pending_enqueueTx (hash : Hash) (tx : Transaction) :
    (pool.enqueueTx hash tx).1.pending = pool.pending := by
  refine enqueueTx_induction (P := fun p => p.pending = pool.pending) rfl fun old list _ => ?_
  unfold lockNew
  split <;> exact pending_dropOld _ _

@[simp] theorem pending_enqueueAll (txs : List Transaction) :
    (pool.enqueueAll txs).pending = pool.pending := by
  induction txs generalizing pool with
  | nil => rfl
  | cons t txs ih => exact (ih (pool.enqueueTx t.hash t).1).trans (pending_enqueueTx pool t.hash t)

theorem queue_promoteTx (addr : Address) (hash : Hash) (tx : Transaction) (now : Nat) :
    (pool.promoteTx addr hash tx now).1.queue = pool.queue := by
  unfold promoteTx
  dsimp only
  split
  · rfl
  · unfold touch lockNew
    dsimp only
    split <;> exact queue_dropOld _ _

@[simp] theorem queue_promoteAll (addr : Address) (now : Nat) (txs : List Transaction) :
    (pool.promoteAll addr now txs).1.queue = pool.queue := by
  induction txs generalizing pool with
  | nil => rfl
  | cons t txs ih => exact (ih _).trans (queue_promoteTx pool addr t.hash t now)

@[simp] theorem lookup_setQueue (addr : Address) (list : TxList) :
    (pool.setQueue addr list).queue.lookup addr = some list := by
  simp [setQueue]

@[simp] theorem lookup_setPending (addr : Address) (list : TxList) :
    (pool.setPending addr list).pending.lookup addr = some list := by
  simp [setPending]

end

theorem takes_capQueue {removed : List Transaction}
    (h : pool.capQueue addr list = (removed, list')) : list.Takes removed list' := by
  unfold TxPool.capQueue at h
  split at h
  · cases h
    exact ⟨TxSortedMap.Splits.refl _, rfl⟩
  · exact takes_cap h

/-- The stages of promotion: three times transactions leave the queue and the pool, and once
they become pending. -/
theorem promoteAccount_induction {P : TxPool → Prop} {now : Nat} (h : P pool)
    (hdrop : ∀ pool list list' removed, P pool → pool.queue.lookup addr = some list →
      (list.strict = false → list.Takes removed list') →
      P ((pool.setQueue addr list').unlockAll removed))
    (hready : ∀ pool list list' readies, P pool → pool.queue.lookup addr = some list →
      list.Takes readies list' → P ((pool.setQueue addr list').promoteAll addr now readies).1)
    (hend : ∀ pool list count, P pool → pool.queue.lookup addr = some list →
      P ((pool.pricedRemoved count).deleteQueueIfEmpty addr list)) :
    P (pool.promoteAccount addr now).1 := by
  unfold TxPool.promoteAccount
  cases hl : pool.queue.lookup addr with
  | none => exact h
  | some list =>
    rcases hf : list.forward (pool.currentState.nonce addr) with ⟨forwards, list1⟩
    have h1 := hdrop pool list list1 forwards h hl fun _ => takes_forward hf
    have hl1 : ((pool.setQueue addr list1).unlockAll forwards).queue.lookup addr = some list1 := by
      simp
    dsimp only
    rw [hf]
    dsimp only
    generalize (pool.setQueue addr list1).unlockAll forwards = pool1 at h1 hl1 ⊢
    rcases hd : list1.filter (pool1.currentState.balance addr) pool1.currentMaxGas with
      ⟨drops, invalids, list2⟩
    have h2 := hdrop pool1 list1 list2 drops h1 hl1 fun hlax => by
      cases invalids_filter hlax hd
      exact List.append_nil drops ▸ takes_filter hd
    have hl2 : ((pool1.setQueue addr list2).unlockAll drops).queue.lookup addr = some list2 := by
      simp
    dsimp only
    generalize (pool1.setQueue addr list2).unlockAll drops = pool2 at h2 hl2 ⊢
    rcases hr : list2.ready (pool2.pendingNonces.get addr) with ⟨readies, list3⟩
    have h3 := hready pool2 list2 list3 readies h2 hl2 (takes_ready hr)
    have hl3 : ((pool2.setQueue addr list3).promoteAll addr now readies).1.queue.lookup addr =
        some list3 := by simp
    dsimp only
    generalize (pool2.setQueue addr list3).promoteAll addr now readies = s at h3 hl3 ⊢
    obtain ⟨pool3, promoted⟩ := s
    rcases hc : pool3.capQueue addr list3 with ⟨caps, list4⟩
    have h4 := hdrop pool3 list3 list4 caps h3 hl3 fun _ => takes_capQueue hc
    exact hend _ list4 _ h4 (by simp)

/-! ## Transactions that are dropped from a list -/

section

variable (h : Reaches K pool0 F pool)

include h

theorem Reaches.dropQueued (hK : ∀ t, K (.unlock t)) (hl : pool.queue.lookup addr = some list)
    (ht : list.Takes removed list') :
    Reaches K pool0 F ((pool.setQueue addr list').unlockAll removed) :=
  (h.takeQueue hl ht).unlockAll hK

theorem Reaches.dropPending (hK : ∀ t, K (.unlock t)) (hl : pool.pending.lookup addr = some list)
    (ht : list.Takes removed list') :
    Reaches K pool0 F ((pool.setPending addr list').unlockAll removed) :=
  (h.takePending hl ht).unlockAll hK

theorem Reaches.pricedRemoved (count : Nat) : Reaches K pool0 F (pool.pricedRemoved count) :=
  h.frame rfl rfl

theorem Reaches.deletePendingIfEmpty (hl : pool.pending.lookup addr = some list) :
    Reaches K pool0 F (pool.deletePendingIfEmpty addr list) := by
  refine h.frame (core_deletePendingIfEmpty hl) ?_
  unfold TxPool.deletePendingIfEmpty
  split <;> rfl

theorem Reaches.deleteQueueIfEmpty (hl : pool.queue.lookup addr = some list) :
    Reaches K pool0 F (pool.deleteQueueIfEmpty addr list) := by
  have hc := core_deleteQueueIfEmpty hl
  have hledger : (pool.deleteQueueIfEmpty addr list).ledger = pool.ledger :=
    congrArg PoolCore.ledger hc
  refine ⟨hc ▸ h.inv, fun a l hla => ?_, hledger ▸ h.evolves,
    (congrArg PoolCore.signer hc).trans h.signer⟩
  unfold TxPool.deleteQueueIfEmpty at hla
  split at hla
  · by_cases ha : a = addr
    · subst ha
      simp at hla
    · exact h.lax a l (by simpa [ha] using hla)
  · exact h.lax a l hla

end

/-! ## Promotion -/

theorem Reaches.promoteAll (h : Reaches K pool0 (txs ++ F) pool) (now : Nat)
    (hsig : ∀ t ∈ txs, pool0.signer t = some addr) :
    Reaches K pool0 F (pool.promoteAll addr now txs).1 := by
  induction txs generalizing pool with
  | nil => exact h
  | cons t txs ih =>
    have ht : pool.signer t = some addr := h.signer ▸ hsig t List.mem_cons_self
    exact ih (Reaches.promoteTx h ht now) fun u hu => hsig u (List.mem_cons_of_mem _ hu)

section

variable (h : Reaches K pool0 F pool)

include h

theorem Reaches.signer_of_takes (hl : pool.queue.lookup addr = some list)
    (ht : list.Takes removed list') :
    ∀ t ∈ removed, pool0.signer t = some addr := by
  intro t hm
  have hslot : pool.core.slots .queued addr t.accountNonce = some t :=
    (congrFun (listAt_of_lookup hl) _).trans (ht.splits.get_of_mem hm).1
  exact h.signer ▸ (h.inv.listed _ _ _ _ hslot).1

theorem Reaches.promoteAccount (hK : ∀ t, K (.unlock t)) (addr : Address) (now : Nat) :
    Reaches K pool0 F (pool.promoteAccount addr now).1 :=
  promoteAccount_induction h (fun _ _ _ _ h hl ht => h.dropQueued hK hl (ht (h.lax addr _ hl)))
    (fun _ _ _ _ h hl ht => (h.takeQueue hl ht).promoteAll now (h.signer_of_takes hl ht))
    fun _ _ _ h hl => Reaches.deleteQueueIfEmpty (h.pricedRemoved _) hl

theorem Reaches.promoteExecutables (hK : ∀ t, K (.unlock t)) (now : Address → Nat)
    (accounts : List Address) :
    Reaches K pool0 F (pool.promoteExecutables now accounts).1 :=
  promoteExecutables_induction (fun _ addr time h => h.promoteAccount hK addr time) now accounts h

/-! ## Demotion -/

theorem Reaches.postponeGapped (hl : pool.pending.lookup addr = some list) (nonce : UInt64) :
    Reaches K pool0 F (pool.postponeGapped addr list nonce).1 ∧
      (pool.postponeGapped addr list nonce).1.pending.lookup addr =
        some (pool.postponeGapped addr list nonce).2 := by
  unfold TxPool.postponeGapped
  split
  · rcases hc : list.cap 0 with ⟨gapped, list'⟩
    exact ⟨(h.takePending hl (takes_cap hc)).enqueueAll, by simp⟩
  · exact ⟨h, hl⟩

end

section

variable (hK : ∀ t, K (.unlock t))

include hK

section

variable (h : Reaches K pool0 F pool)

include h

theorem Reaches.demoteAccount (hKf : ∀ t, K (.forget t)) (addr : Address) :
    Reaches K pool0 F (pool.demoteAccount addr) := by
  unfold TxPool.demoteAccount
  cases hl : pool.pending.lookup addr with
  | none => exact h
  | some list =>
    rcases hf : list.forward (pool.currentState.nonce addr) with ⟨olds, list1⟩
    have h1 := (h.takePending hl (takes_forward hf)).forgetAll hKf
    have hl1 : ((pool.setPending addr list1).forgetAll olds).pending.lookup addr = some list1 := by
      simp
    dsimp only
    rw [hf]
    dsimp only
    generalize (pool.setPending addr list1).forgetAll olds = pool1 at h1 hl1 ⊢
    rcases hd : list1.filter (pool1.currentState.balance addr) pool1.currentMaxGas with
      ⟨drops, invalids, list2⟩
    -- the invalidated ones are still in flight when the unpayable ones have left
    have h2 := h1.takePending hl1 (takes_filter hd)
    rw [List.append_assoc] at h2
    have h3 := ((h2.unlockAll hK).pricedRemoved (olds.length + drops.length)).enqueueAll
    have hl3 : (((pool1.setPending addr list2).unlockAll drops).pricedRemoved
        (olds.length + drops.length) |>.enqueueAll invalids).pending.lookup addr = some list2 := by
      simp [TxPool.pricedRemoved]
    obtain ⟨h4, hl4⟩ := h3.postponeGapped hl3 (pool.currentState.nonce addr)
    exact h4.deletePendingIfEmpty hl4

theorem Reaches.demoteUnexecutables (hKf : ∀ t, K (.forget t)) (order : List Address) :
    Reaches K pool0 F (pool.demoteUnexecutables order) :=
  demoteUnexecutables_induction (fun _ addr h => h.demoteAccount hK hKf addr) order h

/-! ## Truncation of the pending lists -/

theorem Reaches.capOne (addr : Address) : Reaches K pool0 F (pool.capOne addr) := by
  unfold TxPool.capOne
  cases hl : pool.pending.lookup addr with
  | none => exact h
  | some list =>
    rcases hc : list.cap (list.len - 1) with ⟨caps, list'⟩
    dsimp only
    rw [hc]
    exact (h.dropPending hK hl (takes_cap hc)).frame rfl rfl

theorem Reaches.truncatePending (order : List Address) :
    Reaches K pool0 F (pool.truncatePending order) :=
  truncatePending_induction (fun _ addr h => h.capOne hK addr) order h

end

/-! ## Removal -/

theorem Reaches.removePending (h : Reaches K pool0 [] pool)
    (hl : pool.pending.lookup addr = some list) (hget : list.get tx.accountNonce = some tx) :
    Reaches K pool0 [] ((pool.unlockTx tx).removeListed addr tx) := by
  cases hr : list.remove tx with
  | none =>
    rw [remove_eq_none_iff, hget] at hr
    cases hr
  | some r =>
    obtain ⟨invalids, list'⟩ := r
    have hbind : ((pool.unlockTx tx).pending.lookup addr).bind (fun l => l.remove tx) =
        some (invalids, list') := by
      have hl' : (pool.unlockTx tx).pending.lookup addr = some list := hl
      rw [hl', Option.bind_some, hr]
    -- the list is changed after the unlock, but the two do not interfere
    have h1 : Reaches K pool0 (invalids ++ []) ((pool.unlockTx tx).setPending addr list') :=
      (h.takePending hl (takes_remove hget hr)).unlockTx (hK tx)
    have h2 := h1.deletePendingIfEmpty (lookup_setPending _ _ _)
    unfold TxPool.removeListed
    rw [hbind]
    exact h2.enqueueAll.frame rfl rfl

theorem Reaches.removeQueued (h : Reaches K pool0 [] pool) (hl : pool.queue.lookup addr = some list)
    (hget : list.get tx.accountNonce = some tx) :
    Reaches K pool0 [] ((pool.unlockTx tx).removeQueued addr tx) := by
  have hl' : (pool.unlockTx tx).queue.lookup addr = some list := hl
  cases hr : list.remove tx with
  | none =>
    rw [remove_eq_none_iff, hget] at hr
    cases hr
  | some r =>
    obtain ⟨invalids, list'⟩ := r
    cases invalids_remove (h.lax addr list hl) hr
    have h1 : Reaches K pool0 [] ((pool.unlockTx tx).setQueue addr list') :=
      (h.takeQueue hl (takes_remove hget hr)).unlockTx (hK tx)
    unfold TxPool.removeQueued
    rw [hl']
    dsimp only
    rw [hr]
    exact h1.deleteQueueIfEmpty (lookup_setQueue _ _ _)

end

theorem removeTx_of_none {hash : Hash} (hget : pool.all.get hash = none) {outofbound : Bool} :
    pool.removeTx hash outofbound = pool := by
  unfold TxPool.removeTx
  rw [hget]

theorem removeTx_eq {hash : Hash} (hget : pool.all.get hash = some tx) (outofbound : Bool) :
    ∃ priced, pool.removeTx hash outofbound =
      ({ pool with priced }.unlockTx tx).removeListed (pool.sender tx) tx := by
  unfold TxPool.removeTx
  rw [hget]
  cases outofbound with
  | false => exact ⟨_, rfl⟩
  | true => exact ⟨((pool.unlockTx tx).pricedRemoved 1).priced, rfl⟩

omit [HashFns] in
theorem lookup_of_listAt {lists : AList fun _ : Address => TxList} {nonce : UInt64}
    (h : listAt lists addr nonce = some tx) :
    ∃ list, lists.lookup addr = some list ∧ list.get nonce = some tx := by
  unfold listAt at h
  exact Option.bind_eq_some_iff.mp h

section

variable (h : Reaches K pool0 [] pool)

include h

variable (hK : ∀ t, K (.unlock t))
include hK

theorem Reaches.removeListed (htx : pool.all.get tx.hash = some tx) :
    Reaches K pool0 [] ((pool.unlockTx tx).removeListed (pool.sender tx) tx) := by
  obtain ⟨p, a, hslot⟩ := (h.inv.covered tx htx).resolve_left List.not_mem_nil
  have hsig : pool.signer tx = some a := (h.inv.listed p a _ tx hslot).1
  have hsender : pool.sender tx = a := by simp [sender, hsig]
  rw [hsender]
  cases p with
  | pending =>
    obtain ⟨list, hl, hget⟩ := lookup_of_listAt hslot
    exact h.removePending hK hl hget
  | queued =>
    obtain ⟨list, hl, hget⟩ := lookup_of_listAt hslot
    have hfree : listAt pool.pending a tx.accountNonce = none :=
      h.inv.eq_none_of_ne (q := .pending) hslot (by decide)
    have hbind : ((pool.unlockTx tx).pending.lookup a).bind (fun l => l.remove tx) = none := by
      show (pool.pending.lookup a).bind _ = none
      cases hp : pool.pending.lookup a with
      | none => rfl
      | some l =>
        rw [Option.bind_some, remove_eq_none_iff]
        simpa [listAt, hp] using hfree
    unfold TxPool.removeListed
    rw [hbind]
    exact h.removeQueued hK hl hget

theorem Reaches.removeTx (hash : Hash) (outofbound : Bool) :
    Reaches K pool0 [] (pool.removeTx hash outofbound) := by
  cases hget : pool.all.get hash with
  | none => rwa [removeTx_of_none hget]
  | some tx =>
    have htx : pool.all.get tx.hash = some tx := by rw [TxLookup.hash_of_get hget, hget]
    obtain ⟨priced, heq⟩ := removeTx_eq hget outofbound
    have hpriced : Reaches K pool0 [] { pool with priced } := h.frame rfl rfl
    rw [heq]
    exact hpriced.removeListed hK htx

theorem Reaches.removeAll (txs : List Transaction) (outofbound : Bool) :
    Reaches K pool0 [] (txs.foldl (fun pool tx => pool.removeTx tx.hash outofbound) pool) :=
  removeAll_induction (fun _ hash h => h.removeTx hK hash outofbound) txs h

theorem Reaches.truncateQueue (order : List Address) :
    Reaches K pool0 [] (pool.truncateQueue order) :=
  truncateQueue_induction (fun _ hash h => h.removeTx hK hash true) order h

end

/-! ## Admission -/

/-- An admitted transaction may enter. It has a sender whose nonce it is not behind, and no more
gas than a block. -/
theorem validate_eq_none (h : pool.validate tx = none) :
    pool.ledger.Legal (.lock tx) ∧ ∃ addr, pool.signer tx = some addr ∧
      ¬ pool.currentMaxGas < tx.gasLimit ∧ ¬ tx.accountNonce < pool.currentState.nonce addr := by
  unfold validate at h
  split at h
  case isTrue => cases h
  case isFalse hknown =>
    have hall : pool.all.get tx.hash = none := by simpa using hknown
    cases hv : validateCM pool.chain.cmdb tx with
    | some err =>
      rw [hv] at h
      cases h
    | none =>
      rw [hv] at h
      refine ⟨⟨hv, hall⟩, ?_⟩
      dsimp only at h
      split at h
      · cases h
      · unfold validateTx at h
        split_ifs at h with _ _ hgas
        cases hs : pool.signer tx with
        | none =>
          rw [hs] at h
          cases h
        | some addr =>
          rw [hs] at h
          dsimp only at h
          split at h
          · cases h
          · exact ⟨addr, rfl, hgas, ‹_›⟩

theorem Reaches.makeRoom (h : Reaches K pool0 [] pool) (hK : ∀ t, K (.unlock t))
    (tx : Transaction) (isLocal : Bool) : Reaches K pool0 [] (pool.makeRoom tx isLocal).1 :=
  makeRoom_induction (fun _ _ h => h.frame rfl rfl) (fun _ hash h => h.removeTx hK hash false) tx
    isLocal h

theorem Reaches.rebase (h : Reaches K pool0 F pool) (K' : CMEvent → Prop) :
    Reaches K' pool F pool :=
  ⟨h.inv, h.lax, Ledger.Evolves.refl K' _, rfl⟩

theorem Reaches.trans {K' : CMEvent → Prop} {pool' : TxPool} (h : Reaches K pool0 F pool)
    (h' : Reaches K' pool removed pool') (hK : ∀ e, K' e → K e) : Reaches K pool0 removed pool' :=
  ⟨h'.inv, h'.lax, h.evolves.trans (h'.evolves.mono hK), h'.signer.trans h.signer⟩

theorem core_dropOld (pool : TxPool) (old : Option Transaction) :
    (pool.dropOld old).core = pool.core.leaveOld old := by
  cases old with
  | none => rfl
  | some old =>
    show (pool.unlockTx old).core = _
    exact core_unlockTx old

theorem Reaches.enter {p : Place} {old : Option Transaction} {pool' : TxPool}
    (h : Reaches K pool0 [] pool) (hK : ∀ t, K (.unlock t)) (hKl : K (.lock tx))
    (hlegal : pool.ledger.Legal (.lock tx)) (hsig : pool.signer tx = some addr)
    (hold : pool.core.slots p addr tx.accountNonce = old)
    (hother : ∀ q, q ≠ p → pool.core.slots q addr tx.accountNonce = none)
    (hcore : pool'.core = ((pool.core.setList p addr (Function.update (pool.core.slots p addr)
      tx.accountNonce (some tx))).leaveOld old).event (.lock tx))
    (hlax : ∀ a l, pool'.queue.lookup a = some l → l.strict = false) :
    Reaches K pool0 [] pool' where
  inv := hcore ▸ h.inv.enter hlegal hsig hold hother
  lax := hlax
  evolves := by
    have hledger : pool'.ledger = ((pool.core.leaveOld old).event (.lock tx)).ledger := by
      have hl := congrArg PoolCore.ledger hcore
      cases old <;> exact hl
    rw [hledger]
    exact h.evolves.trans (h.inv.evolves_enter hK hKl hlegal hold)
  signer := by
    have hs := congrArg PoolCore.signer hcore
    cases old <;> exact Eq.trans hs h.signer

theorem get_dropOld_eq_none (h : pool.all.get tx.hash = none) (old : Option Transaction) :
    ((pool.dropOld old).all.get tx.hash) = none := by
  cases old with
  | none => exact h
  | some old =>
    show (pool.all.remove old.hash).get tx.hash = none
    rw [TxLookup.get_remove]
    by_cases hh : tx.hash = old.hash
    · rw [hh, Function.update_self]
    · rw [Function.update_of_ne hh, h]

theorem Reaches.enqueueNew (h : Reaches K pool0 [] pool) (hK : ∀ t, K (.unlock t))
    (hKl : K (.lock tx)) (hlegal : pool.ledger.Legal (.lock tx))
    (hsig : pool.signer tx = some addr)
    (hfree : pool.core.slots .pending addr tx.accountNonce = none) :
    Reaches K pool0 [] (pool.enqueueTx tx.hash tx).1 := by
  have hsender : pool.sender tx = addr := by simp [sender, hsig]
  unfold TxPool.enqueueTx
  dsimp only
  rw [hsender]
  cases ha : ((pool.queue.lookup addr).getD (newTxList false)).add tx pool.config.priceBump with
  | none => exact h
  | some r =>
    obtain ⟨old, list'⟩ := r
    obtain ⟨hold, rfl⟩ := add_eq_some ha
    have hnone : (((pool.setQueue addr (((pool.queue.lookup addr).getD (newTxList false)).insert
        tx)).dropOld old).all.get tx.hash).isNone = true := by
      rw [get_dropOld_eq_none (show (pool.setQueue addr _).all.get tx.hash = none from hlegal.2)]
      rfl
    rw [get_getD] at hold
    refine h.enter (p := .queued) hK hKl hlegal hsig hold (fun q hq => ?_) ?_ ?_
    · cases q with
      | pending => exact hfree
      | queued => exact absurd rfl hq
    · dsimp only
      rw [lockNew, if_pos hnone, core_lockTx, core_dropOld, core_setQueue, get_insert,
        get_getD]
      rfl
    · dsimp only
      rw [lockNew, if_pos hnone]
      show ∀ a l, ((TxPool.setQueue _ _ _).dropOld old).queue.lookup a = some l → _
      rw [queue_dropOld]
      exact lookup_setQueue_strict h.lax (strict_getD h.lax addr tx)

theorem pending_free_of_filter
    (hp : (pool.pending.lookup addr).filter (fun list => list.overlaps tx) = none) :
    pool.core.slots .pending addr tx.accountNonce = none := by
  show listAt pool.pending addr tx.accountNonce = none
  cases hl : pool.pending.lookup addr with
  | none => simp [listAt, hl]
  | some list =>
    rw [hl, Option.filter_eq_none_iff] at hp
    have hno := hp list rfl
    simpa [listAt, hl, overlaps] using hno

section

variable (h : Reaches K pool0 [] pool)

include h

section

variable (hK : ∀ t, K (.unlock t)) (hKl : K (.lock tx)) (hlegal : pool.ledger.Legal (.lock tx))
  (hsig : pool.signer tx = some addr)
include hK hKl hlegal hsig

theorem Reaches.replacePending
    (hl : pool.pending.lookup addr = some list) (hover : list.overlaps tx = true)
    {priceBump : UInt64} {old : Option Transaction}
    (ha : list.add tx priceBump = some (old, list')) :
    Reaches K pool0 [] (((pool.setPending addr list').dropOld old).lockTx tx) := by
  obtain ⟨hold, rfl⟩ := add_eq_some ha
  have hslots : pool.core.slots .pending addr = list.get := listAt_of_lookup hl
  obtain ⟨t, ht⟩ := Option.isSome_iff_exists.mp hover
  refine h.enter (p := .pending) hK hKl hlegal hsig (hslots ▸ hold) (fun q hq => ?_) ?_ ?_
  · exact h.inv.eq_none_of_ne (p := .pending) ((congrFun hslots _).trans ht) hq
  · rw [core_lockTx, core_dropOld, core_setPending, get_insert, hslots]
  · show ∀ a l, ((TxPool.setPending _ _ _).dropOld old).queue.lookup a = some l → _
    rw [queue_dropOld]
    exact h.lax

theorem Reaches.insertTx (isLocal : Bool) : Reaches K pool0 [] (pool.insertTx tx isLocal).1 := by
  have hsender : pool.sender tx = addr := by simp [sender, hsig]
  subst hsender
  exact insertTx_induction (fun _ _ _ h => h.frame rfl rfl) h
    (fun list old list' hl hover ha => h.replacePending hK hKl hlegal hsig hl hover ha)
    (fun hp => h.enqueueNew hK hKl hlegal hsig (pending_free_of_filter hp)) isLocal

end

theorem Reaches.add (hK : ∀ t, K (.unlock t)) (tx : Transaction) (hKl : K (.lock tx))
    (isLocal : Bool) :
    Reaches K pool0 [] (pool.add tx isLocal).1 := by
  have hroom := (h.rebase Ledger.IsUnlock).makeRoom (fun _ => trivial) tx isLocal
  have hreach := h.trans hroom fun e he => by
    cases e with
    | unlock t => exact hK t
    | lock t => exact he.elim
    | forget t => exact he.elim
    | store b => exact he.elim
  refine add_induction h (fun _ => hreach) fun hv _ => ?_
  obtain ⟨hlegal, addr, hsig, -⟩ := validate_eq_none hv
  have hlegal' := hroom.evolves.legal_lock h.inv.recorded hlegal
  exact hreach.insertTx hK hKl hlegal' (hroom.signer ▸ hsig) isLocal

theorem Reaches.reset (hK : ∀ t, K (.unlock t)) (hKl : ∀ t, K (.lock t)) (oldHead : Option Header)
    (newHead : Header) :
    Reaches K pool0 [] (pool.reset oldHead newHead) :=
  reset_induction h (fun _ _ _ => h.frame rfl rfl) (fun _ tx h => h.add hK tx (hKl tx) false)
    oldHead newHead

end

end GethComments.TxPool
