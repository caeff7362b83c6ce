import GethComments.Core.PoolCommitments
import GethComments.Core.PoolLists

/-!
# The transactions of the pool and its lists

In every state that the pool reaches, the table of all transactions is the disjoint union of
the pending and the queued ones, and the heap of prices covers it.

* `Sound`: what holds between two operations;
* `Sound.step`, `Sound.call`: every operation and every call keeps it;
* `pool_partition`: what it says of the reachable states.
-/

namespace GethComments

namespace TxPool

variable [HashFns] {K : CMEvent → Prop} {pool₀ pool pool' : TxPool} {addr : Address}
  {list : TxList}

/-! ## Evictions -/

theorem Reaches.all_enqueueAll {F txs : List Transaction} (h : Reaches K pool₀ (txs ++ F) pool) :
    (pool.enqueueAll txs).all = pool.all := by
  induction txs generalizing pool with
  | nil => rfl
  | cons t txs ih =>
    have ht : Reaches K pool₀ (t :: (txs ++ F)) pool := h
    have hall : (pool.enqueueTx t.hash t).1.all = pool.all := by rw [enqueueTx_of_flight ht]; rfl
    exact (ih ht.enqueueTx).trans hall

theorem all_deletePendingIfEmpty (pool : TxPool) (addr : Address) (list : TxList) :
    (pool.deletePendingIfEmpty addr list).all = pool.all := by
  unfold deletePendingIfEmpty
  split <;> rfl

theorem all_removeQueued (pool : TxPool) (addr : Address) (tx : Transaction) :
    (pool.removeQueued addr tx).all = pool.all := by
  unfold removeQueued
  split
  · rfl
  · dsimp only [deleteQueueIfEmpty]
    split <;> rfl

variable {tx : Transaction}

theorem Reaches.pending_of_remove {r : List Transaction × TxList} (h : Reaches K pool₀ [] pool)
    (htx : pool.all.get tx.hash = some tx)
    (hr : ((pool.pending.lookup (pool.sender tx)).bind fun l => l.remove tx) = some r) :
    ∃ l, pool.pending.lookup (pool.sender tx) = some l ∧ l.get tx.accountNonce = some tx ∧
      l.remove tx = some r := by
  obtain ⟨l, hl, hr⟩ := Option.bind_eq_some_iff.mp hr
  obtain ⟨p, a, hslot⟩ := (h.inv.covered tx htx).resolve_left List.not_mem_nil
  have hsig : pool.signer tx = some a := (h.inv.listed p a _ tx hslot).1
  have hsender : pool.sender tx = a := by simp [sender, hsig]
  rw [hsender] at hl ⊢
  refine ⟨l, hl, ?_, hr⟩
  cases p with
  | pending => exact (congrFun (listAt_of_lookup hl) _).symm.trans hslot
  | queued =>
    -- a queued transaction leaves the pending slot of its nonce free
    have hfree := h.inv.eq_none_of_ne (q := .pending) hslot (by decide)
    have hnone : l.get tx.accountNonce = none := (congrFun (listAt_of_lookup hl) _).symm.trans hfree
    rw [TxList.remove_eq_none_iff.mpr hnone] at hr
    cases hr

section

variable (h : Reaches K pool₀ [] pool) (hK : ∀ t, K (.unlock t))
include h hK

theorem Reaches.all_removeListed
    (htx : pool.all.get tx.hash = some tx) :
    ((pool.unlockTx tx).removeListed (pool.sender tx) tx).all = pool.all.remove tx.hash := by
  unfold TxPool.removeListed
  split
  · exact all_removeQueued _ _ _
  · next invalids list' hr =>
    obtain ⟨l, hl, hget, hr⟩ := h.pending_of_remove htx hr
    have h1 : Reaches K pool₀ (invalids ++ [])
        ((pool.unlockTx tx).setPending (pool.sender tx) list') :=
      (h.takePending hl (TxList.takes_remove hget hr)).unlockTx (hK tx)
    have h2 := h1.deletePendingIfEmpty (lookup_setPending _ _ _)
    exact h2.all_enqueueAll.trans (all_deletePendingIfEmpty _ _ _)

theorem Reaches.all_removeTx {hash : Hash}
    (hget : pool.all.get hash = some tx) (outofbound : Bool) :
    (pool.removeTx hash outofbound).all = pool.all.remove hash := by
  have hhash := TxLookup.hash_of_get hget
  have htx : pool.all.get tx.hash = some tx := by rw [hhash, hget]
  obtain ⟨priced, heq⟩ := removeTx_eq hget outofbound
  have hpriced : Reaches K pool₀ [] { pool with priced } := h.frame rfl rfl
  rw [heq, ← hhash]
  exact hpriced.all_removeListed hK htx

theorem Reaches.get_removeAll {u : Transaction} (txs : List Transaction) (outofbound : Bool)
    (hu : (txs.foldl (fun pool tx => pool.removeTx tx.hash outofbound) pool).all.get u.hash =
      some u) : pool.all.get u.hash = some u ∧ u ∉ txs := by
  induction txs generalizing pool with
  | nil => exact ⟨hu, List.not_mem_nil⟩
  | cons t txs ih =>
    obtain ⟨hget, hnot⟩ := ih (h.removeTx hK t.hash outofbound) hu
    suffices h : pool.all.get u.hash = some u ∧ u ≠ t from
      ⟨h.1, List.not_mem_cons_of_ne_of_not_mem h.2 hnot⟩
    cases ht : pool.all.get t.hash with
    | none =>
      rw [removeTx_of_none ht] at hget
      refine ⟨hget, ?_⟩
      rintro rfl
      rw [ht] at hget
      cases hget
    | some t' =>
      rw [h.all_removeTx hK ht] at hget
      refine ⟨TxPricedList.get_remove_eq_some hget, ?_⟩
      rintro rfl
      rw [TxLookup.get_remove, Function.update_self] at hget
      cases hget

end

theorem covers_evict (h : Reaches Legally pool₀ [] pool) {drop : List Transaction}
    {priced : TxPricedList} (hc : priced.Covers pool.all (· ∈ drop))
    (hp : pool' = drop.foldl (fun pool tx => pool.removeTx tx.hash false) { pool with priced }) :
    pool'.priced.Covers pool'.all fun _ => False := by
  subst hp
  have hr : Reaches Legally pool₀ [] { pool with priced } := h.frame rfl rfl
  refine ((indexes_removeAll { pool with priced } drop false).covers _ hc).mono ?_ fun _ hu => hu
  exact fun u hu hm => (hr.get_removeAll (fun _ => trivial) drop false hu).2 hm

section

variable (h : Reaches Legally pool₀ [] pool) (hc : pool.priced.Covers pool.all fun _ => False)
include h hc

theorem covers_makeRoom (tx : Transaction) (isLocal : Bool) :
    (pool.makeRoom tx isLocal).1.priced.Covers (pool.makeRoom tx isLocal).1.all
      fun _ => False := by
  rcases makeRoom_cases pool tx isLocal with hroom | ⟨-, -, hroom⟩ | ⟨-, hroom⟩
  · rwa [hroom]
  · rw [hroom]
    exact hc.underpriced tx pool.isLocal
  · have hcov : (pool.discarded tx isLocal).2.Covers pool.all
        fun u => u ∈ (pool.discarded tx isLocal).1 := by
      cases isLocal with
      | true => exact hc.discard _ pool.isLocal
      | false => exact (hc.underpriced tx pool.isLocal).discard _ pool.isLocal
    rw [hroom]
    exact covers_evict h hcov rfl

theorem covers_add (tx : Transaction) (isLocal : Bool) :
    (pool.add tx isLocal).1.priced.Covers (pool.add tx isLocal).1.all fun _ => False :=
  add_induction (P := fun pool => pool.priced.Covers pool.all fun _ => False) hc
    (fun _ => covers_makeRoom h hc tx isLocal)
    fun _ hroom => (indexes_insertTx _ tx isLocal).covers _ hroom

end

/-! ## The invariant -/

/-- What holds of a pool that has been reached from `pool₀`, between two operations. -/
structure Sound (pool₀ pool : TxPool) : Prop where
  reaches : Reaches Legally pool₀ [] pool
  counted : pool.all.Counted
  filled : Filled pool
  slots : 1 ≤ pool.config.accountSlots.toNat
  /-- Every transaction is in the heap of prices. -/
  covers : pool.priced.Covers pool.all fun _ => False

section Operations

variable (h : Sound pool₀ pool)
include h

theorem Sound.here : Reaches Legally pool [] pool := h.reaches.rebase Legally

/-- One operation: it acts by legal events, keeps books of them and leaves no empty list. -/
theorem Sound.follow (hr : Reaches Legally pool [] pool') (hf : Follows pool pool')
    (hfill : Filled pool') (hcov : pool'.priced.Covers pool'.all fun _ => False) :
    Sound pool₀ pool' where
  reaches := h.reaches.trans hr fun _ _ => trivial
  counted := counted_of_books h.counted hr hf.books
  filled := hfill
  slots := hf.config ▸ h.slots
  covers := hcov

theorem Sound.index (hr : Reaches Legally pool [] pool') (hi : Indexes pool pool')
    (hfill : Filled pool') : Sound pool₀ pool' :=
  h.follow hr hi.toFollows hfill (hi.covers _ h.covers)

theorem Sound.frame (hc : pool'.core = pool.core) (hq : pool'.queue = pool.queue)
    (hp : pool'.pending = pool.pending) (hall : pool'.all = pool.all)
    (hpriced : pool'.priced = pool.priced) (hconf : pool'.config = pool.config) :
    Sound pool₀ pool' where
  reaches := h.reaches.frame hc hq
  counted := hall ▸ h.counted
  filled := h.filled.frame hp
  slots := hconf ▸ h.slots
  covers := hall ▸ hpriced ▸ h.covers

theorem Sound.add (tx : Transaction) (isLocal : Bool) : Sound pool₀ (pool.add tx isLocal).1 :=
  h.follow (h.here.add (fun _ => trivial) tx trivial isLocal)
    (follows_add pool tx isLocal) (h.filled.add tx isLocal)
    (covers_add h.reaches h.covers tx isLocal)

theorem Sound.removeTx (hash : Hash) (outofbound : Bool) :
    Sound pool₀ (pool.removeTx hash outofbound) :=
  h.index (h.here.removeTx (fun _ => trivial) hash outofbound)
    (indexes_removeTx pool hash outofbound) (h.filled.removeTx hash outofbound)

theorem Sound.promoteExecutables (now : Address → Nat) (accounts : List Address) :
    Sound pool₀ (pool.promoteExecutables now accounts).1 :=
  h.index (h.here.promoteExecutables (fun _ => trivial) now accounts)
    (indexes_promoteExecutables pool now accounts) (h.filled.promoteExecutables now accounts)

theorem Sound.demoteUnexecutables (order : List Address) :
    Sound pool₀ (pool.demoteUnexecutables order) :=
  h.index (h.here.demoteUnexecutables (fun _ => trivial) (fun _ => trivial) order)
    (indexes_demoteUnexecutables pool order) (h.filled.demoteUnexecutables order)

theorem Sound.truncatePending (order : List Address) : Sound pool₀ (pool.truncatePending order) :=
  h.index (h.here.truncatePending (fun _ => trivial) order) (indexes_truncatePending pool order)
    (filled_truncatePending h.filled h.slots order)

theorem Sound.truncateQueue (order : List Address) : Sound pool₀ (pool.truncateQueue order) :=
  h.index (h.here.truncateQueue (fun _ => trivial) order) (indexes_truncateQueue pool order)
    (h.filled.truncateQueue order)

theorem Sound.reset (oldHead : Option Header) (newHead : Header) :
    Sound pool₀ (pool.reset oldHead newHead) :=
  reset_induction h (fun _ _ _ => h.frame rfl rfl rfl rfl rfl rfl) (fun _ tx h => h.add tx false)
    oldHead newHead

theorem Sound.writeBlock (w : BlockChain.BlockWrite) : Sound pool₀ (pool.writeBlock w) where
  reaches := h.reaches.writeBlock w trivial
  counted := h.counted
  filled := h.filled.frame rfl
  slots := h.slots
  covers := h.covers

theorem Sound.step (op : PoolOp) : Sound pool₀ (pool.step op) := by
  cases op with
  | add tx isLocal => exact h.add tx isLocal
  | removeTx hash outofbound => exact h.removeTx hash outofbound
  | promoteExecutables accounts now => exact h.promoteExecutables now accounts
  | demoteUnexecutables order => exact h.demoteUnexecutables order
  | truncatePending order => exact h.truncatePending order
  | truncateQueue order => exact h.truncateQueue order
  | reset oldHead newHead => exact h.reset oldHead newHead
  | writeBlock w => exact h.writeBlock w

theorem Sound.addTxs (txs : List Transaction) (isLocal : Bool) :
    Sound pool₀ (pool.addTxs txs isLocal).1 :=
  addTxs_induction txs (fun _ tx _ h => h.add tx isLocal) h

theorem Sound.updateNonces : Sound pool₀ pool.updateNonces := h.frame rfl rfl rfl rfl rfl rfl

theorem Sound.reorganise (r : ReorgRun) :
    let pool1 := (r.heads.map fun hd => pool.reset hd.1 hd.2).getD pool
    let pool2 := (pool1.promoteExecutables r.now (pool1.promoteAddrs r)).1
    Sound pool₀ (if r.heads.isSome then pool2.demoteUnexecutables r.demoteOrder else pool2) := by
  intro pool1 pool2
  have hreset : Sound pool₀ pool1 := by
    show Sound pool₀ ((r.heads.map fun hd => pool.reset hd.1 hd.2).getD pool)
    cases r.heads with
    | none => exact h
    | some hd => exact h.reset hd.1 hd.2
  have hpromote : Sound pool₀ pool2 := hreset.promoteExecutables r.now _
  split
  · exact hpromote.demoteUnexecutables _
  · exact hpromote

theorem Sound.runReorg (r : ReorgRun) : Sound pool₀ (pool.runReorg r) :=
  Sound.updateNonces (Sound.truncateQueue (Sound.truncatePending (h.reorganise r) _) _)

theorem Sound.evict (lifetime now : Nat) (order : List Address) :
    Sound pool₀ (pool.evict lifetime now order) :=
  evict_induction (fun _ hash h => h.removeTx hash true) lifetime now order h

theorem Sound.setGasPrice (price : Int) : Sound pool₀ (pool.setGasPrice price) := by
  have hevict : ∀ (priced : TxPricedList) (drop : List Transaction),
      priced.Covers pool.all (· ∈ drop) → Sound pool₀
        (drop.foldl (fun pool tx => pool.removeTx tx.hash false) { pool with priced }) := by
    intro priced drop hc
    have hp : Reaches Legally pool [] { pool with priced } := h.here.frame rfl rfl
    refine h.follow (hp.removeAll (fun _ => trivial) drop false) ?_ ?_
      (covers_evict h.reaches hc rfl)
    · have hpool : Follows pool { pool with priced } := ⟨rfl, rfl, rfl, rfl, rfl, [], rfl, rfl⟩
      exact hpool.trans (indexes_removeAll _ drop false).toFollows
    · refine Filled.removeAll ?_ drop false
      exact h.filled.frame rfl
  exact hevict _ _ (h.covers.cap price pool.isLocal)

theorem Sound.call (c : PoolCall) : Sound pool₀ (pool.call c) := by
  cases c with
  | addTxs txs isLocal => exact h.addTxs txs isLocal
  | runReorg r => exact h.runReorg r
  | setGasPrice price => exact h.setGasPrice price
  | evict lifetime now order => exact h.evict lifetime now order
  | rotate order => exact h.frame rfl rfl rfl rfl rfl rfl
  | writeBlock w => exact h.writeBlock w

end Operations

/-! ## Reachable states -/

/-- The states of a pool after any operations and calls, in any order. -/
inductive Reachable (pool₀ : TxPool) : TxPool → Prop where
  | refl : Reachable pool₀ pool₀
  | step {pool : TxPool} (h : Reachable pool₀ pool) (op : PoolOp) : Reachable pool₀ (pool.step op)
  | call {pool : TxPool} (h : Reachable pool₀ pool) (c : PoolCall) : Reachable pool₀ (pool.call c)

omit [HashFns] in
theorem one_le_accountSlots_sanitize (config : TxPoolConfig) :
    1 ≤ config.sanitize.accountSlots.toNat := by
  show 1 ≤ (if config.accountSlots < 1 then 16 else config.accountSlots).toNat
  split
  · decide
  · next h =>
    have hle := UInt64.le_iff_toNat_le.mp (UInt64.not_lt.mp h)
    exact hle

theorem sound_newTxPool (config : TxPoolConfig) (chain : BlockChain)
    (signer : Transaction → Option Address) (journal : Option (List Transaction)) :
    Sound (newTxPool config chain signer journal) (newTxPool config chain signer journal) := by
  have hempty := isEmpty_newTxPool config chain signer journal
  obtain ⟨hall, hpriced, hconf⟩ : (newTxPool config chain signer journal).all = TxLookup.empty ∧
      (newTxPool config chain signer journal).priced = TxPricedList.empty ∧
      (newTxPool config chain signer journal).config = config.sanitize := by
    unfold newTxPool TxPool.reset
    dsimp only [Option.map_none, Option.getD_none]
    split <;> exact ⟨rfl, rfl, rfl⟩
  refine ⟨hempty.reaches, hall ▸ TxLookup.counted_empty, fun a l hl => ?_,
    hconf ▸ one_le_accountSlots_sanitize config, hall ▸ hpriced ▸ TxPricedList.covers_empty _⟩
  rw [hempty.pending] at hl
  cases hl

theorem Reachable.sound (h : Reachable pool₀ pool) (h0 : Sound pool₀ pool₀) : Sound pool₀ pool := by
  induction h with
  | refl => exact h0
  | step _ op ih => exact ih.step op
  | call _ c ih => exact ih.call c

/-! ## The partition -/

/-- The lists of an account in which transactions are found. -/
def Listed (lists : AList fun _ : Address => TxList) (tx : Transaction) : Prop :=
  ∃ addr list, lists.lookup addr = some list ∧ tx ∈ list.flatten

omit [HashFns] in
theorem mem_flatten_iff : tx ∈ list.flatten ↔ list.get tx.accountNonce = some tx := by
  constructor
  · intro h
    exact TxSortedMap.get_eq_some_iff.mpr ⟨h, rfl⟩
  · intro h
    exact (TxSortedMap.get_eq_some_iff.mp h).1

omit [HashFns] in
theorem listAt_of_mem {lists : AList fun _ : Address => TxList} (hl : lists.lookup addr = some list)
    (ht : tx ∈ list.flatten) :
    listAt lists addr tx.accountNonce = some tx := by
  rw [listAt_of_lookup hl]
  exact mem_flatten_iff.mp ht

/-- **The pool and its lists.** In every reachable state all transactions are the disjoint union
of the pending and the queued ones. An account has no nonce in both, its lists hold its own
transactions, no empty list is pending, and the slots are counted. -/
theorem pool_partition {config : TxPoolConfig} {chain : BlockChain}
    {signer : Transaction → Option Address} {journal : Option (List Transaction)}
    (h : Reachable (newTxPool config chain signer journal) pool) :
    (∀ hash tx, pool.all.get hash = some tx ↔
      tx.hash = hash ∧ (Listed pool.pending tx ∨ Listed pool.queue tx)) ∧
    (∀ tx, ¬(Listed pool.pending tx ∧ Listed pool.queue tx)) ∧
    (∀ addr l l', pool.pending.lookup addr = some l → pool.queue.lookup addr = some l' →
      ∀ t ∈ l.flatten, ∀ u ∈ l'.flatten, t.accountNonce ≠ u.accountNonce) ∧
    (∀ addr l, pool.pending.lookup addr = some l ∨ pool.queue.lookup addr = some l →
      ∀ t ∈ l.flatten, pool.signer t = some addr) ∧
    (∀ addr l, pool.pending.lookup addr = some l → l.flatten ≠ []) ∧
    pool.all.slots = ((pool.all.range.map numSlots).sum : Nat) := by
  have hs := h.sound (sound_newTxPool config chain signer journal)
  have hinv := hs.reaches.inv
  have hpend : ∀ addr l, pool.pending.lookup addr = some l → ∀ t ∈ l.flatten,
      pool.core.slots .pending addr t.accountNonce = some t :=
    fun addr l hl t ht => listAt_of_mem hl ht
  have hqueue : ∀ addr l, pool.queue.lookup addr = some l → ∀ t ∈ l.flatten,
      pool.core.slots .queued addr t.accountNonce = some t :=
    fun addr l hl t ht => listAt_of_mem hl ht
  have happart : ∀ addr l l', pool.pending.lookup addr = some l → pool.queue.lookup addr = some l' →
      ∀ t ∈ l.flatten, ∀ u ∈ l'.flatten, t.accountNonce ≠ u.accountNonce := by
    intro addr l l' hl hl' t ht u hu heq
    have hnone := hinv.eq_none_of_ne (q := .queued) (hpend addr l hl t ht) (by decide)
    rw [heq, hqueue addr l' hl' u hu] at hnone
    cases hnone
  refine ⟨fun hash tx => ⟨fun hget => ?_, ?_⟩, ?_, happart, ?_, ?_, hs.counted⟩
  · have hhash := TxLookup.hash_of_get hget
    have hhas : pool.core.ledger.Has tx := by
      show pool.all.get tx.hash = some tx
      rw [hhash, hget]
    obtain ⟨p, a, hslot⟩ := (hinv.covered tx hhas).resolve_left List.not_mem_nil
    refine ⟨hhash, ?_⟩
    cases p with
    | pending =>
      obtain ⟨l, hl, hg⟩ := lookup_of_listAt hslot
      exact Or.inl ⟨a, l, hl, mem_flatten_iff.mpr hg⟩
    | queued =>
      obtain ⟨l, hl, hg⟩ := lookup_of_listAt hslot
      exact Or.inr ⟨a, l, hl, mem_flatten_iff.mpr hg⟩
  · rintro ⟨rfl, ⟨a, l, hl, ht⟩ | ⟨a, l, hl, ht⟩⟩
    · exact (hinv.listed _ _ _ tx (hpend a l hl tx ht)).2.2
    · exact (hinv.listed _ _ _ tx (hqueue a l hl tx ht)).2.2
  · rintro tx ⟨⟨a, l, hl, ht⟩, a', l', hl', ht'⟩
    -- both lists are of the sender's account
    have hsig := (hinv.listed _ _ _ tx (hpend a l hl tx ht)).1
    have hsig' := (hinv.listed _ _ _ tx (hqueue a' l' hl' tx ht')).1
    cases Option.some.inj (hsig.symm.trans hsig')
    exact happart a l l' hl hl' tx ht tx ht' rfl
  · rintro addr l (hl | hl) t ht
    · exact (hinv.listed _ _ _ t (hpend addr l hl t ht)).1
    · exact (hinv.listed _ _ _ t (hqueue addr l hl t ht)).1
  · intro addr l hl hnil
    have hne := hs.filled addr l hl
    have hlen : l.len = 0 := List.length_eq_zero_iff.mpr hnil
    simp [TxList.isEmpty, hlen] at hne

theorem reachable_calls (pool₀ : TxPool) (cs : List PoolCall) :
    Reachable pool₀ (pool₀.calls cs) := by
  suffices h : ∀ pool, Reachable pool₀ pool → Reachable pool₀ (pool.calls cs) from h _ .refl
  induction cs with
  | nil => exact fun _ h => h
  | cons c cs ih => exact fun _ h => ih _ (h.call c)

/-- **A better price is enough.** After any calls, what a full pool turns away as underpriced pays
no more than any transaction in it. -/
theorem underpriced_pays_least (config : TxPoolConfig) (chain : BlockChain)
    (signer : Transaction → Option Address) (journal : Option (List Transaction))
    (cs : List PoolCall) (tx : Transaction) (isLocal : Bool) :
    let pool := (newTxPool config chain signer journal).calls cs
    (pool.makeRoom tx isLocal).2 = none ∨
      ∀ old, pool.all.get old.hash = some old → tx.price ≤ old.price := by
  intro pool
  have hcovers :=
    ((reachable_calls _ cs).sound (sound_newTxPool config chain signer journal)).covers
  rcases makeRoom_cases pool tx isLocal with heq | ⟨-, htrue, -⟩ | ⟨-, heq⟩
  · exact Or.inl (by rw [heq])
  · refine Or.inr fun old hold => Nat.le_of_not_lt fun hlt => ?_
    rw [TxPricedList.underpriced_eq_false hcovers hold hlt] at htrue
    cases htrue
  · exact Or.inl (by rw [heq])

end TxPool

end GethComments

namespace GethComments.TxPool

/-! ## A small run -/

attribute [local instance] HashFns.plain

/-- A run of `runReorg` without a new head, for the one account of `genesisPool`. -/
def promoteRun : ReorgRun where
  heads := none
  dirtyAccounts := [zeroAddress]
  now := fun _ => 0
  promoteOrder := []
  demoteOrder := []
  pendingOrder := []
  queueOrder := []

/-- The commitment `[10]` is minted, and a transfer of it is promoted. -/
def promoting : List PoolCall :=
  [.writeBlock mintWrite, .addTxs [split34] false, .runReorg promoteRun]

attribute [local irreducible] promoting

theorem pool_partition_promoting :
    ∃ tx, (genesisPool.calls promoting).all.get split34.hash = some tx ∧
      tx.hash = split34.hash ∧ (Listed (genesisPool.calls promoting).pending tx ∨
        Listed (genesisPool.calls promoting).queue tx) := by
  have hsome : ((genesisPool.calls promoting).all.get split34.hash).isSome = true := by
    decide +kernel
  obtain ⟨tx, htx⟩ := Option.isSome_iff_exists.mp hsome
  exact ⟨tx, htx, ((pool_partition (reachable_calls genesisPool promoting)).1 _ tx).mp htx⟩

end GethComments.TxPool
