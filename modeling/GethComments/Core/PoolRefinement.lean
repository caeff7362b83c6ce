import GethComments.Core.PoolSlots
import GethComments.Core.TxPool

/-!
# The pool refines the ledger

Every operation of the pool acts on the ledger by a sequence of legal events and keeps the
slot invariant.

* `core`: the slots and the ledger of a pool;
* `Reaches`: from `pool₀`, the pool has been reached with the transactions `F` in flight and by
  events of the kind `K`;
* `Reaches.add`, `Reaches.removeTx`, `Reaches.promoteExecutables`, `Reaches.demoteUnexecutables`,
  `Reaches.truncatePending`, `Reaches.truncateQueue`, `Reaches.reset`: one rule for each
  operation.
-/

namespace GethComments.TxPool

/-- The transaction of a nonce in the list of an account. -/
def listAt (lists : AList fun _ : Address => TxList) (addr : Address) (nonce : UInt64) :
    Option Transaction :=
  (lists.lookup addr).bind fun list => list.get nonce

variable {lists : AList fun _ : Address => TxList} {addr : Address} {list : TxList}

theorem listAt_of_lookup (h : lists.lookup addr = some list) : listAt lists addr = list.get := by
  funext n
  simp [listAt, h]

theorem get_getD (lists : AList fun _ : Address => TxList) (addr : Address) (strict : Bool) :
    ((lists.lookup addr).getD (newTxList strict)).get = listAt lists addr := by
  funext n
  cases h : lists.lookup addr with
  | none => simp [listAt, h, newTxList, TxList.get]
  | some list => simp [listAt, h]

theorem listAt_insert (lists : AList fun _ : Address => TxList) (addr : Address) (list : TxList) :
    listAt (lists.insert addr list) = Function.update (listAt lists) addr list.get := by
  funext b n
  by_cases h : b = addr
  · subst h
    simp [listAt]
  · simp [listAt, h]

theorem listAt_erase (h : lists.lookup addr = some list) (he : list.isEmpty = true) :
    listAt (lists.erase addr) = listAt lists := by
  funext b n
  by_cases hb : b = addr
  · subst hb
    have hnil : list.txs.txs = [] := by simpa [TxList.isEmpty, TxList.len, TxSortedMap.len] using he
    have hget : list.get n = none := by simp [TxList.get, TxSortedMap.get, hnil]
    simp [listAt, h, hget]
  · simp [listAt, hb]

variable [HashFns]

def ledger (pool : TxPool) : Ledger := ⟨pool.chain.cmdb, pool.all.get, pool.events⟩

def core (pool : TxPool) : PoolCore where
  signer := pool.signer
  slots := fun
    | .pending => listAt pool.pending
    | .queued => listAt pool.queue
  ledger := pool.ledger

/-! ## Steps on the core -/

section Core

variable {pool : TxPool}

theorem core_setPending : (pool.setPending addr list).core =
    pool.core.setList .pending addr list.get := by
  refine congrArg (PoolCore.mk pool.signer · pool.ledger) ?_
  funext p
  cases p with
  | pending => exact (listAt_insert pool.pending addr list).trans (by simp [core])
  | queued => simp [core, setPending]

theorem core_setQueue : (pool.setQueue addr list).core =
    pool.core.setList .queued addr list.get := by
  refine congrArg (PoolCore.mk pool.signer · pool.ledger) ?_
  funext p
  cases p with
  | pending => simp [core, setQueue]
  | queued => exact (listAt_insert pool.queue addr list).trans (by simp [core])

theorem core_deletePendingIfEmpty (h : pool.pending.lookup addr = some list) :
    (pool.deletePendingIfEmpty addr list).core = pool.core := by
  unfold deletePendingIfEmpty
  split
  case isTrue he =>
    refine congrArg (PoolCore.mk pool.signer · pool.ledger) ?_
    funext p
    cases p with
    | pending => exact listAt_erase h he
    | queued => rfl
  case isFalse => rfl

theorem core_deleteQueueIfEmpty (h : pool.queue.lookup addr = some list) :
    (pool.deleteQueueIfEmpty addr list).core = pool.core := by
  unfold deleteQueueIfEmpty
  split
  case isTrue he =>
    refine congrArg (PoolCore.mk pool.signer · pool.ledger) ?_
    funext p
    cases p with
    | pending => rfl
    | queued => exact listAt_erase h he
  case isFalse => rfl

theorem core_lockTx (tx : Transaction) : (pool.lockTx tx).core = pool.core.event (.lock tx) := by
  simp [core, ledger, lockTx, PoolCore.event, Ledger.step, pool.all.get_add]

theorem core_unlockTx (tx : Transaction) :
    (pool.unlockTx tx).core = pool.core.event (.unlock tx) := by
  simp [core, ledger, unlockTx, PoolCore.event, Ledger.step, pool.all.get_remove]

theorem core_forgetTx (tx : Transaction) :
    (pool.forgetTx tx).core = pool.core.event (.forget tx) := by
  simp [core, ledger, forgetTx, PoolCore.event, Ledger.step, pool.all.get_remove]

end Core

/-! ## Moves of the pool -/

/-- From `pool₀` the pool has been reached by events of the kind `K`, and the transactions `F`
are in flight. -/
structure Reaches (K : CMEvent → Prop) (pool₀ : TxPool) (F : List Transaction) (pool : TxPool) :
    Prop where
  inv : PoolCore.Inv F pool.core
  /-- Queued transactions may have gaps. -/
  lax : ∀ addr list, pool.queue.lookup addr = some list → list.strict = false
  evolves : Ledger.Evolves K pool₀.ledger pool.ledger
  signer : pool.signer = pool₀.signer

variable {K : CMEvent → Prop} {pool₀ pool pool' : TxPool} {F removed txs : List Transaction}
  {list' : TxList} {tx : Transaction}

theorem Reaches.frame (h : Reaches K pool₀ F pool) (hc : pool'.core = pool.core)
    (hq : pool'.queue = pool.queue) : Reaches K pool₀ F pool' where
  inv := hc ▸ h.inv
  lax := hq ▸ h.lax
  evolves := by
    have hl : pool'.ledger = pool.ledger := congrArg PoolCore.ledger hc
    rw [hl]
    exact h.evolves
  signer := (congrArg PoolCore.signer hc).trans h.signer

theorem Reaches.takePending (h : Reaches K pool₀ F pool)
    (hl : pool.pending.lookup addr = some list) (ht : list.Takes removed list') :
    Reaches K pool₀ (removed ++ F) (pool.setPending addr list') where
  inv := by
    have hslots : pool.core.slots .pending addr = list.txs.get := listAt_of_lookup hl
    rw [core_setPending]
    exact h.inv.take (hslots ▸ PoolCore.splits_of_map ht.splits)
  lax := h.lax
  evolves := h.evolves
  signer := h.signer

theorem lookup_setQueue_strict (h : ∀ a l, pool.queue.lookup a = some l → l.strict = false)
    (hs : list.strict = false) :
    ∀ a l, (pool.setQueue addr list).queue.lookup a = some l → l.strict = false := by
  intro a l hl
  by_cases ha : a = addr
  · subst ha
    have heq : list = l := by simpa [setQueue] using hl
    exact heq ▸ hs
  · exact h a l (by simpa [setQueue, ha] using hl)

theorem Reaches.takeQueue (h : Reaches K pool₀ F pool) (hl : pool.queue.lookup addr = some list)
    (ht : list.Takes removed list') :
    Reaches K pool₀ (removed ++ F) (pool.setQueue addr list') where
  inv := by
    have hslots : pool.core.slots .queued addr = list.txs.get := listAt_of_lookup hl
    rw [core_setQueue]
    exact h.inv.take (hslots ▸ PoolCore.splits_of_map ht.splits)
  lax := lookup_setQueue_strict h.lax (ht.strict.trans (h.lax addr list hl))
  evolves := h.evolves
  signer := h.signer

theorem Reaches.event {e : CMEvent} {F' : List Transaction} (h : Reaches K pool₀ F pool)
    (hcore : pool'.core = pool.core.event e) (hq : pool'.queue = pool.queue)
    (hinv : PoolCore.Inv F' (pool.core.event e)) (hK : K e) (hlegal : pool.ledger.Legal e) :
    Reaches K pool₀ F' pool' where
  inv := hcore ▸ hinv
  lax := hq ▸ h.lax
  evolves := by
    have hl : pool'.ledger = pool.ledger.step e := congrArg PoolCore.ledger hcore
    rw [hl]
    exact h.evolves.step hK hlegal
  signer := (congrArg PoolCore.signer hcore).trans h.signer

theorem Reaches.unlockTx (h : Reaches K pool₀ (tx :: F) pool) (hK : K (.unlock tx)) :
    Reaches K pool₀ F (pool.unlockTx tx) :=
  h.event (core_unlockTx tx) rfl h.inv.unlock hK h.inv.legal_unlock

theorem Reaches.forgetTx (h : Reaches K pool₀ (tx :: F) pool) (hK : K (.forget tx)) :
    Reaches K pool₀ F (pool.forgetTx tx) :=
  h.event (core_forgetTx tx) rfl h.inv.forget hK h.inv.legal_unlock

theorem Reaches.unlockAll (h : Reaches K pool₀ (txs ++ F) pool) (hK : ∀ t, K (.unlock t)) :
    Reaches K pool₀ F (pool.unlockAll txs) := by
  induction txs generalizing pool with
  | nil => exact h
  | cons t txs ih => exact ih (h.unlockTx (hK t))

theorem Reaches.forgetAll (h : Reaches K pool₀ (txs ++ F) pool) (hK : ∀ t, K (.forget t)) :
    Reaches K pool₀ F (pool.forgetAll txs) := by
  induction txs generalizing pool with
  | nil => exact h
  | cons t txs ih => exact ih (h.forgetTx (hK t))

theorem Reaches.flight (h : Reaches K pool₀ (tx :: F) pool) :
    pool.signer tx = some (pool.sender tx) ∧ (pool.all.get tx.hash).isNone = false ∧
      ∀ p, pool.core.slots p (pool.sender tx) tx.accountNonce = none := by
  obtain ⟨hhas, a, hsig, hnone⟩ := h.inv.flight tx List.mem_cons_self
  have hsig' : pool.signer tx = some a := hsig
  have hs : pool.sender tx = a := by simp [sender, hsig']
  have hget : pool.all.get tx.hash = some tx := hhas
  rw [hs]
  exact ⟨hsig', by simp [hget], hnone⟩

theorem enqueueTx_of_flight (h : Reaches K pool₀ (tx :: F) pool) :
    pool.enqueueTx tx.hash tx = (pool.setQueue (pool.sender tx)
      (((pool.queue.lookup (pool.sender tx)).getD (newTxList false)).insert tx), .ok false) := by
  obtain ⟨-, hall, hfree⟩ := h.flight
  have hget : ((pool.queue.lookup (pool.sender tx)).getD (newTxList false)).get tx.accountNonce =
      none := by
    rw [get_getD]
    exact hfree .queued
  have hall' : ∀ l, ((pool.setQueue (pool.sender tx) l).all.get tx.hash).isNone = false :=
    fun _ => hall
  simp [enqueueTx, TxList.add_of_get_eq_none _ hget, dropOld, lockNew, hall']

theorem strict_getD (h : ∀ a l, pool.queue.lookup a = some l → l.strict = false)
    (addr : Address) (tx : Transaction) :
    (((pool.queue.lookup addr).getD (newTxList false)).insert tx).strict = false := by
  cases hl : pool.queue.lookup addr with
  | none => rfl
  | some list => exact h addr list hl

theorem Reaches.enqueueTx (h : Reaches K pool₀ (tx :: F) pool) :
    Reaches K pool₀ F (pool.enqueueTx tx.hash tx).1 := by
  rw [enqueueTx_of_flight h]
  refine ⟨?_, lookup_setQueue_strict h.lax (strict_getD h.lax _ tx), h.evolves, h.signer⟩
  have hplace := h.inv.place .queued h.flight.1
  rw [core_setQueue, TxList.get_insert, get_getD]
  exact hplace

theorem Reaches.enqueueAll (h : Reaches K pool₀ (txs ++ F) pool) :
    Reaches K pool₀ F (pool.enqueueAll txs) := by
  induction txs generalizing pool with
  | nil => exact h
  | cons t txs ih => exact ih h.enqueueTx

variable (h : Reaches K pool₀ (tx :: F) pool) (hsig : pool.signer tx = some addr) (now : Nat)
include h hsig now

theorem promoteTx_of_flight : pool.promoteTx addr tx.hash tx now =
      ((pool.setPending addr (((pool.pending.lookup addr).getD (newTxList true)).insert tx)).touch
        addr now (tx.accountNonce + 1), true) := by
  obtain ⟨hsender, hall, hfree⟩ := h.flight
  have haddr : pool.sender tx = addr := Option.some.inj (hsender.symm.trans hsig)
  rw [haddr] at hfree
  have hget : ((pool.pending.lookup addr).getD (newTxList true)).get tx.accountNonce = none := by
    rw [get_getD]
    exact hfree .pending
  have hall' : ∀ l, ((pool.setPending addr l).all.get tx.hash).isNone = false := fun _ => hall
  simp [TxPool.promoteTx, TxList.add_of_get_eq_none _ hget, dropOld, lockNew, hall']

theorem Reaches.promoteTx : Reaches K pool₀ F (pool.promoteTx addr tx.hash tx now).1 := by
  have hset : Reaches K pool₀ F
      (pool.setPending addr (((pool.pending.lookup addr).getD (newTxList true)).insert tx)) := by
    refine ⟨?_, h.lax, h.evolves, h.signer⟩
    have hplace := h.inv.place .pending hsig
    rw [core_setPending, TxList.get_insert, get_getD]
    exact hplace
  rw [promoteTx_of_flight h hsig]
  exact hset.frame rfl rfl

end GethComments.TxPool
