import GethComments.Core.NonceRanges
import GethComments.Core.PoolPartition

/-!
# The nonces of the pool

The pending transactions of an account are a range from the nonce of its state on, and the
virtual nonce is in this range or right after it.

* `Ahead`: no queued nonce is below the state's;
* `Settled`: what holds between two calls, and after every part of one without a new head;
* `Settled.removeTx`, `Settled.add`, `Settled.capOne`, `Settled.promoteAccount`: the steps.
-/

namespace GethComments

open TxList

namespace TxPool

variable [HashFns] {pool0 pool pool' : TxPool} {addr : Address} {list list' : TxList}
  {tx : Transaction}

/-! ## Invariants -/

/-- The nonces of an account that may wait. -/
def Waits (pool : TxPool) (addr : Address) (nonce : UInt64) : Prop :=
  (pool.currentState.nonce addr).toNat ≤ nonce.toNat ∧ nonce.toNat + 1 < 2 ^ 64

structure Ahead (pool : TxPool) : Prop where
  waits : ∀ a n, (listAt pool.queue a n).isSome → pool.Waits a n
  capped : ∀ a l, pool.queue.lookup a = some l → l.Capped

/-- The pending nonces are a range from the state's nonce on, with the virtual nonce in it or
at its end. -/
def SettledAt (pool : TxPool) (addr : Address) : Prop :=
  ∃ e, Spans (listAt pool.pending addr) 0 (pool.currentState.nonce addr).toNat e ∧
    (pool.currentState.nonce addr).toNat ≤ (pool.pendingNonces.get addr).toNat ∧
    (pool.pendingNonces.get addr).toNat ≤ e ∧ e < 2 ^ 64

def AllStrict (pool : TxPool) : Prop := ∀ a l, pool.pending.lookup a = some l → l.strict = true

structure Settled (pool : TxPool) : Prop where
  ahead : Ahead pool
  strict : AllStrict pool
  settled : ∀ a, SettledAt pool a

theorem Ahead.frame (h : Ahead pool) (hq : pool'.queue = pool.queue)
    (hs : pool'.currentState = pool.currentState) : Ahead pool' where
  waits a n hn := by
    rw [hq] at hn
    simpa only [Waits, hs] using h.waits a n hn
  capped := hq ▸ h.capped

theorem SettledAt.frame (h : SettledAt pool addr)
    (hp : listAt pool'.pending addr = listAt pool.pending addr)
    (hn : pool'.pendingNonces.get addr = pool.pendingNonces.get addr)
    (hs : pool'.currentState = pool.currentState) : SettledAt pool' addr := by
  unfold SettledAt
  rw [hp, hn, hs]
  exact h

theorem Settled.frame (h : Settled pool) (hp : pool'.pending = pool.pending)
    (hq : pool'.queue = pool.queue) (hn : pool'.pendingNonces = pool.pendingNonces)
    (hs : pool'.currentState = pool.currentState) : Settled pool' where
  ahead := h.ahead.frame hq hs
  strict := by
    unfold AllStrict
    rw [hp]
    exact h.strict
  settled a := (h.settled a).frame (by rw [hp]) (by rw [hn]) hs

/-! ## The queue -/

theorem Ahead.setQueue (h : Ahead pool) (hw : ∀ n, (list.get n).isSome → pool.Waits addr n)
    (hc : list.Capped) : Ahead (pool.setQueue addr list) where
  waits a n hn := by
    have hlists : listAt (pool.setQueue addr list).queue =
        Function.update (listAt pool.queue) addr list.get := listAt_insert pool.queue addr list
    rw [hlists] at hn
    by_cases ha : a = addr
    · subst ha
      rw [Function.update_self] at hn
      exact hw n hn
    · rw [Function.update_of_ne ha] at hn
      exact h.waits a n hn
  capped a l hl := by
    by_cases ha : a = addr
    · subst ha
      rw [lookup_setQueue] at hl
      exact Option.some.inj hl ▸ hc
    · exact h.capped a l (by simpa [TxPool.setQueue, ha] using hl)

theorem Ahead.deleteQueueIfEmpty (h : Ahead pool) (hl : pool.queue.lookup addr = some list) :
    Ahead (pool.deleteQueueIfEmpty addr list) := by
  unfold TxPool.deleteQueueIfEmpty
  split
  · next he =>
    refine ⟨fun a n hn => h.waits a n ?_, fun a l hla => ?_⟩
    · rw [← listAt_erase hl he]
      exact hn
    · by_cases ha : a = addr
      · subst ha
        simp at hla
      · exact h.capped a l (by simpa [ha] using hla)
  · exact h

theorem capped_getD (h : Ahead pool) (addr : Address) :
    ((pool.queue.lookup addr).getD (newTxList false)).Capped := by
  cases hl : pool.queue.lookup addr with
  | none => exact capped_newTxList false
  | some l => exact h.capped addr l hl

theorem Ahead.enqueueTx (h : Ahead pool) (hash : Hash)
    (hw : pool.Waits (pool.sender tx) tx.accountNonce) : Ahead (pool.enqueueTx hash tx).1 := by
  refine enqueueTx_induction h fun old list' ha => ?_
  obtain ⟨-, rfl⟩ := add_eq_some ha
  have hset : Ahead (pool.setQueue (pool.sender tx)
      (((pool.queue.lookup (pool.sender tx)).getD (newTxList false)).insert tx)) := by
    refine h.setQueue (fun n hn => ?_) ((capped_getD h _).insert tx)
    rw [get_insert, get_getD] at hn
    by_cases hne : n = tx.accountNonce
    · exact hne ▸ hw
    · rw [Function.update_of_ne hne] at hn
      exact h.waits _ n hn
  unfold lockNew
  split <;> exact hset.frame (queue_dropOld _ old) (indexes_dropOld _ old).currentState

theorem Ahead.enqueueAll (h : Ahead pool) (txs : List Transaction)
    (hw : ∀ t ∈ txs, pool.Waits (pool.sender t) t.accountNonce) : Ahead (pool.enqueueAll txs) := by
  induction txs generalizing pool with
  | nil => exact h
  | cons t txs ih =>
    have hi := indexes_enqueueTx pool t.hash t
    refine ih (h.enqueueTx t.hash (hw t List.mem_cons_self)) fun u hu => ?_
    have hu' := hw u (List.mem_cons_of_mem t hu)
    simpa only [Waits, sender, hi.signer, hi.currentState] using hu'

section

variable (pool)

theorem pendingNonces_dropOld (old : Option Transaction) :
    (pool.dropOld old).pendingNonces = pool.pendingNonces := by
  cases old <;> rfl

theorem pendingNonces_enqueueTx (hash : Hash) (tx : Transaction) :
    (pool.enqueueTx hash tx).1.pendingNonces = pool.pendingNonces := by
  refine enqueueTx_induction (P := fun p => p.pendingNonces = pool.pendingNonces) rfl
    fun old list _ => ?_
  unfold lockNew
  split <;> exact pendingNonces_dropOld _ _

@[simp] theorem pendingNonces_enqueueAll (txs : List Transaction) :
    (pool.enqueueAll txs).pendingNonces = pool.pendingNonces := by
  induction txs generalizing pool with
  | nil => rfl
  | cons t txs ih => exact (ih _).trans (pendingNonces_enqueueTx pool t.hash t)

@[simp] theorem pendingNonces_unlockAll (txs : List Transaction) :
    (pool.unlockAll txs).pendingNonces = pool.pendingNonces := by
  induction txs generalizing pool with
  | nil => rfl
  | cons t txs ih => exact ih (pool.unlockTx t)

@[simp] theorem pendingNonces_forgetAll (txs : List Transaction) :
    (pool.forgetAll txs).pendingNonces = pool.pendingNonces := by
  induction txs generalizing pool with
  | nil => rfl
  | cons t txs ih => exact ih (pool.forgetTx t)

end

theorem Settled.enqueueTx (h : Settled pool) (hash : Hash)
    (hw : pool.Waits (pool.sender tx) tx.accountNonce) : Settled (pool.enqueueTx hash tx).1 where
  ahead := h.ahead.enqueueTx hash hw
  strict := by
    unfold AllStrict
    rw [pending_enqueueTx]
    exact h.strict
  settled a := (h.settled a).frame (by rw [pending_enqueueTx]) (by rw [pendingNonces_enqueueTx])
    (indexes_enqueueTx pool hash tx).currentState

/-! ## Pending lists -/

/-- What is pending in `pool'` is `f` for the account, and as before for all others. -/
structure Repends (addr : Address) (f : UInt64 → Option Transaction) (pool pool' : TxPool) :
    Prop where
  here : listAt pool'.pending addr = f
  strict : ∀ l, pool'.pending.lookup addr = some l → l.strict = true
  elsewhere : SameElsewhere addr pool pool'

theorem SameElsewhere.listAt_eq (h : SameElsewhere addr pool pool') {a : Address} (ha : a ≠ addr) :
    listAt pool'.pending a = listAt pool.pending a := by
  funext n
  simp only [listAt, h a ha]

variable {f : UInt64 → Option Transaction}

theorem Repends.allStrict (h : Repends addr f pool pool') (hs : AllStrict pool) :
    AllStrict pool' := by
  intro a l hl
  by_cases ha : a = addr
  · exact h.strict l (ha ▸ hl)
  · exact hs a l ((h.elsewhere a ha).symm.trans hl)

theorem repends_setPending (pool : TxPool) (addr : Address) (hs : list.strict = true) :
    Repends addr list.get pool (pool.setPending addr list) where
  here := listAt_of_lookup (lookup_setPending pool addr list)
  strict l hl := by
    rw [lookup_setPending] at hl
    exact Option.some.inj hl ▸ hs
  elsewhere := sameElsewhere_setPending pool addr list

theorem Repends.frame {pool'' : TxPool} (h : Repends addr f pool pool')
    (hp : pool''.pending = pool'.pending) :
    Repends addr f pool pool'' where
  here := by rw [hp, h.here]
  strict := by
    rw [hp]
    exact h.strict
  elsewhere := h.elsewhere.trans (.of_pending hp)

theorem queue_deletePendingIfEmpty (pool : TxPool) (addr : Address) (list : TxList) :
    (pool.deletePendingIfEmpty addr list).queue = pool.queue := by
  unfold TxPool.deletePendingIfEmpty
  split <;> rfl

theorem pendingNonces_deletePendingIfEmpty (pool : TxPool) (addr : Address) (list : TxList) :
    (pool.deletePendingIfEmpty addr list).pendingNonces = pool.pendingNonces := by
  unfold TxPool.deletePendingIfEmpty
  split <;> rfl

theorem Repends.deletePendingIfEmpty (h : Repends addr list.get pool pool')
    (hl : pool'.pending.lookup addr = some list) :
    Repends addr list.get pool (pool'.deletePendingIfEmpty addr list) := by
  unfold TxPool.deletePendingIfEmpty
  split
  · next he =>
    refine ⟨?_, fun l hla => ?_, fun a ha => ?_⟩
    · rw [← h.here, ← listAt_erase hl he]
    · simp at hla
    · rw [← h.elsewhere a ha]
      simp [ha]
  · exact h

theorem Settled.repend (h : Settled pool) (ha : Ahead pool') (hr : Repends addr f pool pool')
    (hs : pool'.currentState = pool.currentState)
    (hn : ∀ a, a ≠ addr → pool'.pendingNonces.get a = pool.pendingNonces.get a) {e : Nat}
    (hspan : Spans f 0 (pool.currentState.nonce addr).toNat e)
    (hlow : (pool.currentState.nonce addr).toNat ≤ (pool'.pendingNonces.get addr).toNat)
    (hhigh : (pool'.pendingNonces.get addr).toNat ≤ e) (he : e < 2 ^ 64) : Settled pool' where
  ahead := ha
  strict := hr.allStrict h.strict
  settled a := by
    by_cases haddr : a = addr
    · subst haddr
      unfold SettledAt
      rw [hr.here, hs]
      exact ⟨e, hspan, hlow, hhigh, he⟩
    · exact (h.settled a).frame (hr.elsewhere.listAt_eq haddr) (hn a haddr) hs

omit [HashFns] in
theorem get_setIfLower_self (n : TxNoncer) (addr : Address) (nonce : UInt64) :
    ((n.setIfLower addr nonce).get addr).toNat = min (n.get addr).toNat nonce.toNat := by
  unfold TxNoncer.setIfLower
  split
  · next hle =>
    rw [UInt64.le_iff_toNat_le] at hle
    omega
  · next hle =>
    rw [UInt64.le_iff_toNat_le] at hle
    simp only [TxNoncer.get, TxNoncer.set, Function.update_self, Option.getD_some] at hle ⊢
    omega

omit [HashFns] in
theorem get_setIfLower_of_ne (n : TxNoncer) {a : Address} (ha : a ≠ addr) (nonce : UInt64) :
    (n.setIfLower addr nonce).get a = n.get a := by
  unfold TxNoncer.setIfLower
  split
  · rfl
  · simp [TxNoncer.get, TxNoncer.set, Function.update_of_ne ha]

/-! ## Removal -/

theorem Ahead.removeQueued (h : Ahead pool) (addr : Address) (tx : Transaction) :
    Ahead (pool.removeQueued addr tx) := by
  unfold TxPool.removeQueued
  split
  · exact h
  · next future hl =>
    have hrem := remove_subset future tx
    generalize ((future.remove tx).map Prod.snd).getD future = l' at hrem ⊢
    obtain ⟨hsub, hcost, hgas, -⟩ := hrem
    have hset : Ahead (pool.setQueue addr l') := by
      refine h.setQueue (fun n hn => ?_) ((h.capped addr future hl).of_subset hsub hcost hgas)
      obtain ⟨t, ht⟩ := Option.isSome_iff_exists.mp hn
      obtain ⟨hm, hnonce⟩ := TxSortedMap.get_eq_some_iff.mp ht
      have hget : future.get n = some t := TxSortedMap.get_eq_some_iff.mpr ⟨hsub hm, hnonce⟩
      apply h.waits addr n
      rw [listAt_of_lookup hl, hget]
      rfl
    exact hset.deleteQueueIfEmpty (lookup_setQueue pool addr l')

theorem pendingNonces_removeQueued (pool : TxPool) (addr : Address) (tx : Transaction) :
    (pool.removeQueued addr tx).pendingNonces = pool.pendingNonces := by
  unfold removeQueued
  split
  · rfl
  · dsimp only [deleteQueueIfEmpty]
    split <;> rfl

theorem currentState_removeQueued (pool : TxPool) (addr : Address) (tx : Transaction) :
    (pool.removeQueued addr tx).currentState = pool.currentState := by
  unfold removeQueued
  split
  · rfl
  · dsimp only [deleteQueueIfEmpty]
    split <;> rfl

theorem Reaches.sender_of_pending {K : CMEvent → Prop} {F : List Transaction}
    (h : Reaches K pool0 F pool) (hl : pool.pending.lookup addr = some list) {t : Transaction}
    (ht : list.get t.accountNonce = some t) : pool.sender t = addr := by
  have hslot : pool.core.slots .pending addr t.accountNonce = some t :=
    (congrFun (listAt_of_lookup hl) _).trans ht
  have hsig : pool.signer t = some addr := (h.inv.listed _ _ _ _ hslot).1
  simp [sender, hsig]

theorem Settled.removeListed (h : Settled pool)
    (hs : ∀ l, pool.pending.lookup addr = some l → ∀ t, l.get t.accountNonce = some t →
      pool.sender t = addr) (tx : Transaction) : Settled (pool.removeListed addr tx) := by
  unfold TxPool.removeListed
  split
  · have hsettled : ∀ a, SettledAt (pool.removeQueued addr tx) a := fun a =>
      (h.settled a).frame (by rw [pending_removeQueued]) (by rw [pendingNonces_removeQueued])
        (currentState_removeQueued pool addr tx)
    refine ⟨h.ahead.removeQueued addr tx, ?_, hsettled⟩
    unfold AllStrict
    rw [pending_removeQueued]
    exact h.strict
  · next invalids list' hr =>
    obtain ⟨list, hl, hr⟩ := Option.bind_eq_some_iff.mp hr
    obtain ⟨e, hspan, hlow, hhigh, he⟩ := h.settled addr
    rw [listAt_of_lookup hl] at hspan
    have hstrict := h.strict addr list hl
    obtain ⟨hspan', hb, hlt, hinv⟩ := spans_remove hstrict hspan hr
    have hstrict' : list'.strict = true := by
      obtain ⟨t, ht⟩ := Option.isSome_iff_exists.mp ((hspan.isSome _).mpr ⟨hb, hlt⟩)
      exact (takes_remove ht hr).strict.trans hstrict
    have hrep := (repends_setPending pool addr hstrict').deletePendingIfEmpty
      (lookup_setPending pool addr list')
    have hstate : ((pool.setPending addr list').deletePendingIfEmpty addr list').currentState =
        pool.currentState := (indexes_deletePendingIfEmpty _ _ _).currentState
    have hsigner : ((pool.setPending addr list').deletePendingIfEmpty addr list').signer =
        pool.signer := (indexes_deletePendingIfEmpty _ _ _).signer
    have hqueue : ((pool.setPending addr list').deletePendingIfEmpty addr list').queue =
        pool.queue := queue_deletePendingIfEmpty _ _ _
    have hnonces : ((pool.setPending addr list').deletePendingIfEmpty addr list').pendingNonces =
        pool.pendingNonces := pendingNonces_deletePendingIfEmpty _ _ _
    generalize (pool.setPending addr list').deletePendingIfEmpty addr list' = pool1 at *
    have hahead : Ahead (pool1.enqueueAll invalids) := by
      refine (h.ahead.frame hqueue hstate).enqueueAll invalids fun t ht => ?_
      have hget := hinv t ht
      have hsender : pool1.sender t = addr := by
        rw [sender, hsigner]
        exact hs list hl t hget
      have hrange := (hspan.isSome _).mp (Option.isSome_of_eq_some hget)
      rw [hsender, Waits, hstate]
      omega
    have hi := indexes_enqueueAll pool1 invalids
    have hnonce : (((pool1.enqueueAll invalids).pendingNonces.setIfLower addr
        tx.accountNonce).get addr).toNat =
          min (pool.pendingNonces.get addr).toNat tx.accountNonce.toNat := by
      rw [get_setIfLower_self, pendingNonces_enqueueAll, hnonces]
    refine h.repend (hahead.frame rfl rfl) (hrep.frame (pending_enqueueAll pool1 invalids))
      (hi.currentState.trans hstate) (fun a ha => ?_) hspan' ?_ ?_ (by omega)
    · show ((pool1.enqueueAll invalids).pendingNonces.setIfLower addr tx.accountNonce).get a = _
      rw [get_setIfLower_of_ne _ ha, pendingNonces_enqueueAll, hnonces]
    · exact hnonce ▸ le_min hlow hb
    · exact hnonce ▸ min_le_right _ _

theorem Settled.removeTx (h : Settled pool) (hr : Reaches Legally pool0 [] pool) (hash : Hash)
    (outofbound : Bool) : Settled (pool.removeTx hash outofbound) := by
  cases hget : pool.all.get hash with
  | none => rwa [removeTx_of_none hget]
  | some tx =>
    obtain ⟨priced, heq⟩ := removeTx_eq hget outofbound
    have hs : Settled ({ pool with priced }.unlockTx tx) := h.frame rfl rfl rfl rfl
    rw [heq]
    exact hs.removeListed (fun l hl t ht => hr.sender_of_pending hl ht) tx

theorem Settled.removeStep (hash : Hash) (outofbound : Bool)
    (h : Settled pool ∧ Reaches Legally pool0 [] pool) :
    Settled (pool.removeTx hash outofbound) ∧
      Reaches Legally pool0 [] (pool.removeTx hash outofbound) :=
  ⟨h.1.removeTx h.2 hash outofbound, h.2.removeTx (fun _ => trivial) hash outofbound⟩

section

variable (h : Settled pool)

include h

section

variable (hr : Reaches Legally pool0 [] pool)

include hr

theorem Settled.removeAll (txs : List Transaction) (outofbound : Bool) :
    Settled (txs.foldl (fun pool tx => pool.removeTx tx.hash outofbound) pool) :=
  (removeAll_induction (P := fun pool => Settled pool ∧ Reaches Legally pool0 [] pool)
    (fun _ hash => Settled.removeStep hash outofbound) txs ⟨h, hr⟩).1

theorem Settled.removePriced (priced : TxPricedList) (txs : List Transaction) (outofbound : Bool) :
    Settled (txs.foldl (fun pool tx => pool.removeTx tx.hash outofbound) { pool with priced }) := by
  have hp : Reaches Legally pool0 [] { pool with priced } := hr.frame rfl rfl
  refine Settled.removeAll ?_ hp txs outofbound
  exact h.frame rfl rfl rfl rfl

theorem Settled.truncateQueue (order : List Address) : Settled (pool.truncateQueue order) :=
  (truncateQueue_induction (P := fun pool => Settled pool ∧ Reaches Legally pool0 [] pool)
    (fun _ hash => Settled.removeStep hash true) order ⟨h, hr⟩).1

theorem Settled.evict (lifetime now : Nat) (order : List Address) :
    Settled (pool.evict lifetime now order) :=
  (evict_induction (P := fun pool => Settled pool ∧ Reaches Legally pool0 [] pool)
    (fun _ hash => Settled.removeStep hash true) lifetime now order ⟨h, hr⟩).1

theorem Settled.setGasPrice (price : Int) : Settled (pool.setGasPrice price) :=
  h.removePriced hr _ _ false

/-! ## Admission -/

theorem Settled.makeRoom (tx : Transaction) (isLocal : Bool) :
    Settled (pool.makeRoom tx isLocal).1 :=
  (makeRoom_induction (P := fun pool => Settled pool ∧ Reaches Legally pool0 [] pool)
    (fun _ _ h => ⟨h.1.frame rfl rfl rfl rfl, h.2.frame rfl rfl⟩)
    (fun _ hash => Settled.removeStep hash false) tx isLocal ⟨h, hr⟩).1

end

end

theorem nonce_of_validate (h : pool.validate tx = none) :
    (pool.currentState.nonce (pool.sender tx)).toNat ≤ tx.accountNonce.toNat := by
  obtain ⟨-, addr, hsig, -, hnonce⟩ := validate_eq_none h
  have hsender : pool.sender tx = addr := by simp [sender, hsig]
  rw [hsender, ← UInt64.le_iff_toNat_le]
  exact UInt64.not_lt.mp hnonce

section

variable (h : Settled pool)

include h

theorem Settled.insertTx (hw : pool.Waits (pool.sender tx) tx.accountNonce) (isLocal : Bool) :
    Settled (pool.insertTx tx isLocal).1 := by
  refine insertTx_induction (fun _ _ _ h => h.frame rfl rfl rfl rfl) h
    (fun list old list' hl hover ha => ?_) (fun _ => h.enqueueTx tx.hash hw) isLocal
  obtain ⟨-, rfl⟩ := add_eq_some ha
  have hstrict : (list.insert tx).strict = true := h.strict _ list hl
  have hrep := repends_setPending pool (pool.sender tx) hstrict
  obtain ⟨e, hspan, hlow, hhigh, he⟩ := h.settled (pool.sender tx)
  -- only a transaction of the same nonce is replaced
  have hset : Settled (pool.setPending (pool.sender tx) (list.insert tx)) := by
    refine h.repend (h.ahead.frame rfl rfl) hrep rfl (fun _ _ => rfl) ?_ hlow hhigh he
    rw [get_insert, ← listAt_of_lookup hl]
    refine hspan.replace ?_
    rw [listAt_of_lookup hl]
    exact hover
  refine Settled.frame hset ?_ ?_ ?_ ?_
  · exact pending_dropOld _ old
  · exact queue_dropOld _ old
  · exact pendingNonces_dropOld _ old
  · exact (indexes_dropOld _ old).currentState

theorem Settled.add (hr : Reaches Legally pool0 [] pool) (hmax : tx.accountNonce.toNat + 1 < 2 ^ 64)
    (isLocal : Bool) :
    Settled (pool.add tx isLocal).1 := by
  refine add_induction h (fun _ => h.makeRoom hr tx isLocal) fun hv hroom =>
    hroom.insertTx ?_ isLocal
  have hf := follows_makeRoom pool tx isLocal
  simp only [Waits, sender, hf.signer, hf.currentState]
  exact ⟨nonce_of_validate hv, hmax⟩

theorem Settled.addTxs (hs : Sound pool0 pool) (isLocal : Bool) (txs : List Transaction)
    (hmax : ∀ tx ∈ txs, tx.accountNonce.toNat + 1 < 2 ^ 64) :
    Settled (pool.addTxs txs isLocal).1 :=
  (addTxs_induction (P := fun pool => Settled pool ∧ Sound pool0 pool) txs
    (fun _ tx ht h => ⟨h.1.add h.2.reaches (hmax tx ht) isLocal, h.2.add tx isLocal⟩) ⟨h, hs⟩).1

/-! ## Truncation of the pending lists -/

theorem Settled.capOne (addr : Address) : Settled (pool.capOne addr) := by
  unfold TxPool.capOne
  cases hl : pool.pending.lookup addr with
  | none => exact h
  | some list =>
    rcases hc : list.cap (list.len - 1) with ⟨caps, list'⟩
    dsimp only
    rw [hc]
    dsimp only
    have hstrict : list'.strict = true := (takes_cap hc).strict.trans (h.strict addr list hl)
    have hi := indexes_unlockAll (pool.setPending addr list') caps
    have hstate : ((pool.setPending addr list').unlockAll caps).currentState = pool.currentState :=
      hi.currentState
    have hnonces : ((pool.setPending addr list').unlockAll caps).pendingNonces =
        pool.pendingNonces := pendingNonces_unlockAll _ _
    have hrep : Repends addr list'.get pool ((pool.setPending addr list').unlockAll caps) :=
      (repends_setPending pool addr hstrict).frame (pending_unlockAll _ _)
    have hahead : Ahead ((pool.setPending addr list').unlockAll caps) :=
      h.ahead.frame (queue_unlockAll _ _) hstate
    obtain ⟨e, hspan, hlow, hhigh, he⟩ := h.settled addr
    rw [listAt_of_lookup hl] at hspan
    generalize (pool.setPending addr list').unlockAll caps = pool1 at *
    rw [hnonces]
    rcases spans_cap hspan (hlow.trans hhigh) he hc with
      ⟨rfl, hspan'⟩ | ⟨t, rfl, hte, htlow, hspan'⟩
    · exact h.repend (hahead.frame rfl rfl) (hrep.frame rfl) hstate (fun _ _ => rfl) hspan' hlow
        hhigh he
    · have hnonce := get_setIfLower_self pool.pendingNonces addr t.accountNonce
      rw [List.foldl_cons, List.foldl_nil]
      exact h.repend (hahead.frame rfl rfl) (hrep.frame rfl) hstate
        (fun a ha => get_setIfLower_of_ne _ ha _) hspan' (hnonce ▸ le_min hlow htlow)
        (hnonce ▸ min_le_right _ _) (by omega)

theorem Settled.truncatePending (order : List Address) : Settled (pool.truncatePending order) :=
  truncatePending_induction (fun _ addr h => h.capOne addr) order h

end

end TxPool

end GethComments
