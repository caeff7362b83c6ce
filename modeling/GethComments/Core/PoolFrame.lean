import GethComments.Core.PriceHeap
import GethComments.Core.TxPoolLoop

/-!
# What the operations of the pool leave alone

Promotion, demotion, truncation and removal keep the configuration, the signer, the state
and the chain of the pool, except for the commitment database. They change the table of all
transactions only together with the history of events.

* `Follows`: these facts about a pool and one that comes after it;
* `Indexes`: the heap of prices also covers the new table as it covered the old one;
* `indexes_removeTx`, `indexes_promoteExecutables`, `indexes_demoteUnexecutables`,
  `indexes_truncatePending`, `indexes_truncateQueue`, `follows_add`: one lemma for each operation.
-/

namespace GethComments

variable [HashFns]

/-- What an event does to the table of all transactions. -/
def TxLookup.event (t : TxLookup) : CMEvent → TxLookup
  | .lock tx => t.add tx
  | .unlock tx => t.remove tx.hash
  | .forget tx => t.remove tx.hash
  | .store _ => t

namespace TxPool

structure Follows (pool pool' : TxPool) : Prop where
  config : pool'.config = pool.config
  signer : pool'.signer = pool.signer
  currentState : pool'.currentState = pool.currentState
  currentMaxGas : pool'.currentMaxGas = pool.currentMaxGas
  chain : pool'.chain = { pool.chain with cmdb := pool'.chain.cmdb }
  /-- The events since, latest first, lead from one table to the other. -/
  books : ∃ es : List CMEvent, pool'.events = es ++ pool.events ∧
    pool'.all = es.foldr (fun e t => t.event e) pool.all

variable {pool pool' pool'' : TxPool}

theorem Follows.refl (pool : TxPool) : Follows pool pool := ⟨rfl, rfl, rfl, rfl, rfl, [], rfl, rfl⟩

theorem Follows.trans (h : Follows pool pool') (h' : Follows pool' pool'') :
    Follows pool pool'' where
  config := h'.config.trans h.config
  signer := h'.signer.trans h.signer
  currentState := h'.currentState.trans h.currentState
  currentMaxGas := h'.currentMaxGas.trans h.currentMaxGas
  chain := by rw [h'.chain, h.chain]
  books := by
    obtain ⟨es, hev, hall⟩ := h.books
    obtain ⟨es', hev', hall'⟩ := h'.books
    refine ⟨es' ++ es, ?_, ?_⟩
    · rw [hev', hev, List.append_assoc]
    · rw [hall', hall, List.foldr_append]

/-- What is pooled is as well covered by the heap of prices as before. -/
structure Indexes (pool pool' : TxPool) : Prop extends Follows pool pool' where
  covers : ∀ D, pool.priced.Covers pool.all D → pool'.priced.Covers pool'.all D

theorem Indexes.refl (pool : TxPool) : Indexes pool pool := ⟨Follows.refl pool, fun _ h => h⟩

theorem Indexes.trans (h : Indexes pool pool') (h' : Indexes pool' pool'') : Indexes pool pool'' :=
  ⟨h.toFollows.trans h'.toFollows, fun D hD => h'.covers D (h.covers D hD)⟩

/-! ## Single moves -/

theorem closed_indexes (pool : TxPool) : Closed (Indexes pool) where
  lockTx _ tx h := h.trans ⟨⟨rfl, rfl, rfl, rfl, rfl, [.lock tx], rfl, rfl⟩, fun _ h => h.put tx⟩
  unlockTx _ tx h :=
    h.trans ⟨⟨rfl, rfl, rfl, rfl, rfl, [.unlock tx], rfl, rfl⟩, fun _ h => h.remove tx.hash⟩
  forgetTx _ tx h :=
    h.trans ⟨⟨rfl, rfl, rfl, rfl, rfl, [.forget tx], rfl, rfl⟩, fun _ h => h.remove tx.hash⟩
  pricedRemoved _ count h :=
    h.trans ⟨⟨rfl, rfl, rfl, rfl, rfl, [], rfl, rfl⟩, fun _ h => h.removed count⟩
  lists _ _ _ _ _ h := h.trans ⟨⟨rfl, rfl, rfl, rfl, rfl, [], rfl, rfl⟩, fun _ h => h⟩

theorem closed_locals (locals : List Address) : Closed fun pool => pool.locals = locals :=
  ⟨fun _ _ h => h, fun _ _ h => h, fun _ _ h => h, fun _ _ h => h, fun _ _ _ _ _ h => h⟩

section

variable (pool) (addr : Address) (txs : List Transaction)

theorem indexes_setPending (list : TxList) : Indexes pool (pool.setPending addr list) :=
  (closed_indexes pool).setPending (.refl pool) addr list

theorem indexes_deletePendingIfEmpty (list : TxList) :
    Indexes pool (pool.deletePendingIfEmpty addr list) :=
  (closed_indexes pool).deletePendingIfEmpty (.refl pool) addr list

theorem indexes_pricedRemoved (count : Nat) : Indexes pool (pool.pricedRemoved count) :=
  (closed_indexes pool).pricedRemoved pool count (.refl pool)

theorem indexes_dropOld (old : Option Transaction) : Indexes pool (pool.dropOld old) :=
  (closed_indexes pool).dropOld (.refl pool) old

theorem indexes_unlockAll : Indexes pool (pool.unlockAll txs) :=
  (closed_indexes pool).unlockAll (.refl pool) txs

theorem indexes_forgetAll : Indexes pool (pool.forgetAll txs) :=
  (closed_indexes pool).forgetAll (.refl pool) txs

/-! ## Queue and pending lists -/

theorem indexes_enqueueTx (hash : Hash) (tx : Transaction) :
    Indexes pool (pool.enqueueTx hash tx).1 :=
  (closed_indexes pool).enqueueTx (.refl pool) hash tx

theorem indexes_enqueueAll : Indexes pool (pool.enqueueAll txs) :=
  (closed_indexes pool).enqueueAll (.refl pool) txs

theorem indexes_promoteAccount (now : Nat) : Indexes pool (pool.promoteAccount addr now).1 :=
  (closed_indexes pool).promoteAccount (.refl pool) addr now

theorem indexes_promoteExecutables (now : Address → Nat) (accounts : List Address) :
    Indexes pool (pool.promoteExecutables now accounts).1 :=
  promoteExecutables_induction (P := Indexes pool)
    (fun _ addr time h => h.trans (indexes_promoteAccount _ addr time)) now accounts
    (Indexes.refl pool)

theorem indexes_demoteAccount : Indexes pool (pool.demoteAccount addr) :=
  (closed_indexes pool).demoteAccount (.refl pool) addr

theorem indexes_demoteUnexecutables (order : List Address) :
    Indexes pool (pool.demoteUnexecutables order) :=
  demoteUnexecutables_induction (P := Indexes pool)
    (fun _ addr h => h.trans (indexes_demoteAccount _ addr)) order (Indexes.refl pool)

/-! ## Truncation and removal -/

theorem indexes_truncatePending (order : List Address) :
    Indexes pool (pool.truncatePending order) :=
  truncatePending_induction (P := Indexes pool)
    (fun _ addr h => (closed_indexes pool).capOne h addr) order (.refl pool)

theorem indexes_removeTx (hash : Hash) (outofbound : Bool) :
    Indexes pool (pool.removeTx hash outofbound) :=
  (closed_indexes pool).removeTx (.refl pool) hash outofbound

theorem indexes_removeAll (txs : List Transaction) (outofbound : Bool) :
    Indexes pool (txs.foldl (fun pool tx => pool.removeTx tx.hash outofbound) pool) :=
  removeAll_induction (P := Indexes pool)
    (fun _ hash h => h.trans (indexes_removeTx _ hash outofbound)) txs (Indexes.refl pool)

theorem indexes_truncateQueue (order : List Address) : Indexes pool (pool.truncateQueue order) :=
  truncateQueue_induction (P := Indexes pool)
    (fun _ hash h => h.trans (indexes_removeTx _ hash true)) order (Indexes.refl pool)

end

theorem evict_induction {P : TxPool → Prop}
    (hstep : ∀ pool hash, P pool → P (pool.removeTx hash true)) (lifetime now : Nat)
    (order : List Address) (h : P pool) : P (pool.evict lifetime now order) := by
  unfold evict
  induction visit pool.queue.keys order generalizing pool with
  | nil => exact h
  | cons addr accounts ih =>
    apply ih
    unfold evictAccount
    split
    · exact h
    · split
      · exact removeAll_induction hstep _ h
      · exact h

section

variable (pool)

theorem indexes_evict (lifetime now : Nat) (order : List Address) :
    Indexes pool (pool.evict lifetime now order) :=
  evict_induction (P := Indexes pool) (fun _ hash h => h.trans (indexes_removeTx _ hash true))
    lifetime now order (Indexes.refl pool)

/-! ## Admission -/

theorem follows_makeRoom (tx : Transaction) (isLocal : Bool) :
    Follows pool (pool.makeRoom tx isLocal).1 :=
  makeRoom_induction (fun _ _ h => h.trans ⟨rfl, rfl, rfl, rfl, rfl, [], rfl, rfl⟩)
    (fun _ hash h => h.trans (indexes_removeTx _ hash false).toFollows) tx isLocal
    (Follows.refl pool)

theorem indexes_insertTx (tx : Transaction) (isLocal : Bool) :
    Indexes pool (pool.insertTx tx isLocal).1 :=
  insertTx_induction
    (fun _ _ _ h => h.trans ⟨⟨rfl, rfl, rfl, rfl, rfl, [], rfl, rfl⟩, fun _ h => h⟩)
    (Indexes.refl pool)
    (fun _ _ _ _ _ _ => (closed_indexes pool).lockTx _ tx
      ((indexes_setPending pool _ _).trans (indexes_dropOld _ _)))
    (fun _ => indexes_enqueueTx pool tx.hash tx) isLocal

theorem follows_add (tx : Transaction) (isLocal : Bool) : Follows pool (pool.add tx isLocal).1 :=
  add_induction (Follows.refl pool) (fun _ => follows_makeRoom pool tx isLocal)
    fun _ h => h.trans (indexes_insertTx _ tx isLocal).toFollows

end

end TxPool

end GethComments
