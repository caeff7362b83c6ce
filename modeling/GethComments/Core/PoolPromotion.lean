import GethComments.Core.PoolNonces

/-!
# Promotion and demotion of nonces

How `promoteExecutables` and `demoteUnexecutables` change the pending nonces, with and without
a new head.

* `promoteAccount_spec`: the transactions of an account that become pending;
* `Settled.promoteAccount`: without a new head the ranges are only extended;
* `Stale`, `Fits`: an account after a new head, before and after its promotion;
* `Fits.demoteAccount`: demotion settles the account again.
-/

namespace GethComments.TxPool

open List

variable [HashFns] {pool0 pool pool' : TxPool} {addr : Address} {list list' : TxList}
  {tx : Transaction} {K : CMEvent → Prop} {F txs : List Transaction}

/-! ## Promotion -/

/-- The pending list of the account, if there is one, has no gaps. -/
def StrictAt (pool : TxPool) (addr : Address) : Prop :=
  ∀ l, pool.pending.lookup addr = some l → l.strict = true

/-- The transactions `txs` of an account have become pending in `pool'`. -/
structure Promoted (addr : Address) (txs : List Transaction) (pool pool' : TxPool) : Prop where
  here : ∀ n t, listAt pool'.pending addr n = some t ↔
    t ∈ txs ∧ t.accountNonce = n ∨ listAt pool.pending addr n = some t
  strict : StrictAt pool addr → StrictAt pool' addr
  elsewhere : SameElsewhere addr pool pool'
  nonce : pool'.pendingNonces.get addr =
    (txs.getLast?.map fun t => t.accountNonce + 1).getD (pool.pendingNonces.get addr)
  nonces : ∀ a, a ≠ addr → pool'.pendingNonces.get a = pool.pendingNonces.get a

theorem promoted_promoteTx (h : Reaches K pool0 (tx :: F) pool) (hsig : pool.signer tx = some addr)
    (now : Nat) :
    Promoted addr [tx] pool (pool.promoteTx addr tx.hash tx now).1 := by
  have hsender : pool.sender tx = addr := by simp [sender, hsig]
  have hfree : listAt pool.pending addr tx.accountNonce = none := by
    have := h.flight.2.2 .pending
    rw [hsender] at this
    exact this
  rw [promoteTx_of_flight h hsig]
  refine ⟨fun n t => ?_, fun hs l hl => ?_, sameElsewhere_setPending pool addr _, ?_,
    fun a ha => ?_⟩
  · show listAt (pool.setPending addr _).pending addr n = some t ↔ _
    rw [listAt_of_lookup (lookup_setPending pool addr _), TxList.get_insert, get_getD,
      mem_singleton]
    by_cases hn : n = tx.accountNonce
    · subst hn
      rw [Function.update_self, hfree]
      constructor
      · intro heq
        cases heq
        exact Or.inl ⟨rfl, rfl⟩
      · rintro (⟨rfl, -⟩ | heq)
        · rfl
        · cases heq
    · rw [Function.update_of_ne hn]
      refine ⟨Or.inr, fun hor => hor.resolve_left ?_⟩
      rintro ⟨rfl, rfl⟩
      exact hn rfl
  · have hl' : l = ((pool.pending.lookup addr).getD (newTxList true)).insert tx :=
      (Option.some.inj ((lookup_setPending pool addr _).symm.trans hl)).symm
    rw [hl']
    cases hold : pool.pending.lookup addr with
    | none => rfl
    | some l0 => exact hs l0 hold
  · simp [touch, TxNoncer.get, TxNoncer.set]
  · simp [touch, TxNoncer.get, TxNoncer.set, Function.update_of_ne ha, setPending]

variable {pool'' : TxPool}

theorem Promoted.trans {us : List Transaction} (h : Promoted addr txs pool pool')
    (h' : Promoted addr us pool' pool'') : Promoted addr (txs ++ us) pool pool'' where
  here n t := by
    rw [h'.here, h.here, mem_append]
    tauto
  strict := h'.strict ∘ h.strict
  elsewhere := h.elsewhere.trans h'.elsewhere
  nonce := by
    rw [h'.nonce, h.nonce, getLast?_append]
    cases us.getLast? <;> rfl
  nonces a ha := (h'.nonces a ha).trans (h.nonces a ha)

theorem promoted_nil (hp : pool'.pending = pool.pending)
    (hn : pool'.pendingNonces = pool.pendingNonces) :
    Promoted addr [] pool pool' where
  here n t := by simp [hp]
  strict hs := by
    unfold StrictAt
    rw [hp]
    exact hs
  elsewhere := .of_pending hp
  nonce := by simp [hn]
  nonces a _ := by rw [hn]

theorem Promoted.listAt_eq (h : Promoted addr [] pool pool') :
    listAt pool'.pending addr = listAt pool.pending addr := by
  funext n
  apply Option.ext
  intro t
  simpa using h.here n t

theorem promoted_promoteAll (h : Reaches K pool0 (txs ++ F) pool)
    (hsig : ∀ t ∈ txs, pool0.signer t = some addr) (now : Nat) :
    Promoted addr txs pool (pool.promoteAll addr now txs).1 := by
  induction txs generalizing pool with
  | nil => exact promoted_nil rfl rfl
  | cons t txs ih =>
    have ht : pool.signer t = some addr := h.signer ▸ hsig t mem_cons_self
    have hone := promoted_promoteTx h ht now
    have hrest := ih (Reaches.promoteTx h ht now) fun u hu => hsig u (mem_cons_of_mem t hu)
    exact hone.trans hrest

/-- What promotion does to an account with the queue `list`. -/
structure Promotes (addr : Address) (list : TxList) (readies : List Transaction)
    (pool pool' : TxPool) : Prop where
  promoted : Promoted addr readies pool pool'
  /-- The transactions that are ready were queued, and are not too old. -/
  ready : ∀ t ∈ readies, list.get t.accountNonce = some t ∧
    ¬ t.accountNonce < pool.currentState.nonce addr
  payable : list.Capped → ∀ t ∈ readies,
    TxList.Payable (pool.currentState.balance addr) pool.currentMaxGas t
  /-- Their nonces are a range that does not start above the virtual nonce. -/
  start : (∀ t ∈ list.txs.txs, t.accountNonce.toNat + 1 < 2 ^ 64) →
    ∃ first ≤ (pool.pendingNonces.get addr).toNat,
      readies.map (fun t => t.accountNonce.toNat) = range' first readies.length
  /-- What is left in the queue is not too old. -/
  left : ∀ n t, listAt pool'.queue addr n = some t →
    list.get n = some t ∧ ¬ n < pool.currentState.nonce addr
  /-- A local account loses nothing that can be executed. -/
  stays : addr ∈ pool.locals → ∀ t, list.get t.accountNonce = some t →
    ¬ t.accountNonce < pool.currentState.nonce addr →
    TxList.Payable (pool.currentState.balance addr) pool.currentMaxGas t →
    t ∈ readies ∨ listAt pool'.queue addr t.accountNonce = some t
  capped : list.Capped → ∀ l, pool'.queue.lookup addr = some l → l.Capped
  others : ∀ a, a ≠ addr → pool'.queue.lookup a = pool.queue.lookup a

/-- Only the queue of the account has changed, to `list`. -/
structure Requeues (addr : Address) (list : TxList) (pool pool' : TxPool) : Prop where
  here : pool'.queue.lookup addr = some list
  others : ∀ a, a ≠ addr → pool'.queue.lookup a = pool.queue.lookup a
  pending : pool'.pending = pool.pending
  nonces : pool'.pendingNonces = pool.pendingNonces
  state : pool'.currentState = pool.currentState
  gas : pool'.currentMaxGas = pool.currentMaxGas
  locals : pool'.locals = pool.locals

theorem requeues_setQueue (pool : TxPool) (addr : Address) (list : TxList)
    (removed : List Transaction) :
    Requeues addr list pool ((pool.setQueue addr list).unlockAll removed) where
  here := by simp
  others a ha := by
    rw [queue_unlockAll]
    simp [setQueue, ha]
  pending := pending_unlockAll _ _
  nonces := pendingNonces_unlockAll _ _
  state := (indexes_unlockAll _ _).currentState
  gas := (indexes_unlockAll _ _).currentMaxGas
  locals := (closed_locals _).unlockAll ((closed_locals pool.locals).setQueue rfl addr list) removed

theorem Requeues.trans (h : Requeues addr list pool pool') (h' : Requeues addr list' pool' pool'') :
    Requeues addr list' pool pool'' where
  here := h'.here
  others a ha := (h'.others a ha).trans (h.others a ha)
  pending := h'.pending.trans h.pending
  nonces := h'.nonces.trans h.nonces
  state := h'.state.trans h.state
  gas := h'.gas.trans h.gas
  locals := h'.locals.trans h.locals

theorem Promoted.of_requeues (hr : Requeues addr list pool pool')
    (h : Promoted addr txs pool' pool'') : Promoted addr txs pool pool'' where
  here := hr.pending ▸ h.here
  strict hs := h.strict (by
    unfold StrictAt
    rw [hr.pending]
    exact hs)
  elsewhere := (SameElsewhere.of_pending hr.pending).trans h.elsewhere
  nonce := hr.nonces ▸ h.nonce
  nonces := hr.nonces ▸ h.nonces

theorem Promoted.frame (h : Promoted addr txs pool pool') (hp : pool''.pending = pool'.pending)
    (hn : pool''.pendingNonces = pool'.pendingNonces) :
    Promoted addr txs pool pool'' where
  here := hp ▸ h.here
  strict hs := by
    unfold StrictAt
    rw [hp]
    exact h.strict hs
  elsewhere := h.elsewhere.trans (.of_pending hp)
  nonce := hn ▸ h.nonce
  nonces := hn ▸ h.nonces

theorem capQueue_spec {caps : List Transaction} (hcaps : pool.capQueue addr list = (caps, list')) :
    list'.txs.txs ⊆ list.txs.txs ∧ (list.Capped → list'.Capped) ∧
      (addr ∈ pool.locals → list' = list) := by
  unfold capQueue at hcaps
  split at hcaps
  · cases hcaps
    exact ⟨fun _ ht => ht, id, fun _ => rfl⟩
  · next hremote =>
    cases hcaps
    have hsub : (list.cap pool.config.accountQueue.toNat).2.txs.txs ⊆ list.txs.txs :=
      fun _ ht => mem_of_mem_take ht
    exact ⟨hsub, fun hc => hc.of_subset hsub rfl rfl, fun hlocal => absurd hlocal hremote⟩

theorem pendingNonces_deleteQueueIfEmpty (pool : TxPool) (addr : Address) (list : TxList) :
    (pool.deleteQueueIfEmpty addr list).pendingNonces = pool.pendingNonces := by
  unfold deleteQueueIfEmpty
  split <;> rfl

theorem queue_deleteQueueIfEmpty (pool : TxPool) (hl : pool.queue.lookup addr = some list) :
    (∀ n, listAt (pool.deleteQueueIfEmpty addr list).queue addr n = list.get n) ∧
      (∀ l, (pool.deleteQueueIfEmpty addr list).queue.lookup addr = some l → l = list) ∧
      ∀ a, a ≠ addr → (pool.deleteQueueIfEmpty addr list).queue.lookup a = pool.queue.lookup a := by
  unfold deleteQueueIfEmpty
  split
  · next he =>
    refine ⟨fun n => ?_, fun l hla => ?_, fun a ha => ?_⟩
    · show listAt (pool.queue.erase addr) addr n = _
      rw [listAt_erase hl he, listAt_of_lookup hl]
    · simp at hla
    · simp [ha]
  · refine ⟨fun n => ?_, fun l hla => ?_, fun _ _ => rfl⟩
    · rw [listAt_of_lookup hl]
    · exact Option.some.inj (hla.symm.trans hl)

theorem promoteAccount_spec (h : Reaches Legally pool0 [] pool)
    (hl : pool.queue.lookup addr = some list) (now : Nat) :
    ∃ readies, Promotes addr list readies pool (pool.promoteAccount addr now).1 := by
  have hK : ∀ t, Legally (.unlock t) := fun _ => trivial
  unfold TxPool.promoteAccount
  rw [hl]
  -- the stages, each with the list it leaves
  rcases hf : list.forward (pool.currentState.nonce addr) with ⟨forwards, list1⟩
  have h1 := h.dropQueued hK hl (TxList.takes_forward hf)
  have hq1 := requeues_setQueue pool addr list1 forwards
  have hmem1 : ∀ t, t ∈ list1.txs.txs ↔ t ∈ list.txs.txs ∧
      ¬ t.accountNonce < pool.currentState.nonce addr := by
    cases hf
    exact fun t => list.txs.mem_forward _ t
  have hc1 : list.Capped → list1.Capped := by
    cases hf
    exact fun hc => hc.of_subset (fun t ht => ((hmem1 t).mp ht).1) rfl rfl
  dsimp only
  rw [hf]
  dsimp only
  generalize (pool.setQueue addr list1).unlockAll forwards = pool1 at h1 hq1 ⊢
  rcases hd : list1.filter (pool1.currentState.balance addr) pool1.currentMaxGas with
    ⟨drops, invalids, list2⟩
  have hlax := h1.lax addr list1 hq1.here
  cases TxList.invalids_filter hlax hd
  have ht2 : list1.Takes drops list2 := append_nil drops ▸ TxList.takes_filter hd
  have h2 := h1.dropQueued hK hq1.here ht2
  have hq2 := hq1.trans (requeues_setQueue pool1 addr list2 drops)
  have hmem2 : ∀ t ∈ list2.txs.txs, t ∈ list.txs.txs ∧
      ¬ t.accountNonce < pool.currentState.nonce addr :=
    fun t ht => (hmem1 t).mp (ht2.splits.subset (mem_append_right _ ht))
  dsimp only
  generalize (pool1.setQueue addr list2).unlockAll drops = pool2 at h2 hq2 ⊢
  rcases hr : list2.ready (pool2.pendingNonces.get addr) with ⟨readies, list3⟩
  have ht3 := TxList.takes_ready hr
  have hflight := h2.takeQueue hq2.here ht3
  have hq3 : Requeues addr list3 pool (pool2.setQueue addr list3) :=
    hq2.trans (requeues_setQueue pool2 addr list3 [])
  have hprom := (promoted_promoteAll hflight (h2.signer_of_takes hq2.here ht3) now).of_requeues hq3
  have hqueue := queue_promoteAll (pool2.setQueue addr list3) addr now readies
  have hlocals := (closed_locals pool2.locals).promoteAll
    ((closed_locals _).setQueue rfl addr list3) addr now readies
  have hc3 : list.Capped → list3.Capped := by
    cases hr
    exact fun hc => ((hc1 hc).filter hd).1.takes ht3 rfl rfl
  have hmemr : ∀ t ∈ readies, t ∈ list2.txs.txs :=
    fun t ht => ht3.splits.subset (mem_append_left _ ht)
  dsimp only
  generalize (pool2.setQueue addr list3).promoteAll addr now readies = r at hprom hqueue hlocals ⊢
  obtain ⟨pool3, promoted⟩ := r
  rcases hcap : pool3.capQueue addr list3 with ⟨caps, list4⟩
  obtain ⟨hsub4, hc4, hlocal4⟩ := capQueue_spec hcap
  have hq4 := requeues_setQueue pool3 addr list4 caps
  obtain ⟨hrest, hlast, hothers⟩ := queue_deleteQueueIfEmpty
    (((pool3.setQueue addr list4).unlockAll caps).pricedRemoved
      (forwards.length + drops.length + caps.length)) hq4.here
  refine ⟨readies, ?_, ?_, ?_, ?_, ?_, ?_, fun hc l hla => hlast l hla ▸ hc4 (hc3 hc), ?_⟩
  · refine hprom.frame ?_ ?_
    · exact (pending_deleteQueueIfEmpty _ _ _).trans (pending_unlockAll _ _)
    · exact (pendingNonces_deleteQueueIfEmpty _ _ _).trans (pendingNonces_unlockAll _ _)
  · intro t ht
    obtain ⟨hmem, hold⟩ := hmem2 t (hmemr t ht)
    exact ⟨TxSortedMap.get_eq_some_iff.mpr ⟨hmem, rfl⟩, hold⟩
  · intro hc t ht
    have hpay := ((hc1 hc).filter hd).2 t (hmemr t ht)
    rw [hq1.state, hq1.gas] at hpay
    exact hpay
  · intro hmax
    rcases list2.txs.ready_cases (pool2.pendingNonces.get addr) with hnil | ⟨t, -, hle, hready⟩
    · refine ⟨0, Nat.zero_le _, ?_⟩
      have hreadies : readies = [] := (congrArg Prod.fst hr).symm.trans hnil
      rw [hreadies]
      rfl
    · have hreadies : readies = (TxSortedMap.consecutive t.accountNonce list2.txs.txs).1 :=
        (congrArg Prod.fst hr).symm.trans hready
      rw [hq2.nonces] at hle
      refine ⟨t.accountNonce.toNat, UInt64.le_iff_toNat_le.mp hle, ?_⟩
      rw [hreadies]
      exact TxSortedMap.consecutive_nonces fun u hu => hmax u (hmem2 u hu).1
  · intro n t hnt
    obtain ⟨hmem4, rfl⟩ := TxSortedMap.get_eq_some_iff.mp ((hrest n).symm.trans hnt)
    have hmem3 := ht3.splits.subset (mem_append_right _ (hsub4 hmem4))
    obtain ⟨hmem, hold⟩ := hmem2 t hmem3
    exact ⟨TxSortedMap.get_eq_some_iff.mpr ⟨hmem, rfl⟩, hold⟩
  · intro hlocal t hget hold hpay
    have hin1 : t ∈ list1.txs.txs := (hmem1 t).mpr ⟨(TxSortedMap.get_eq_some_iff.mp hget).1, hold⟩
    have hin2 : t ∈ list2.txs.txs := by
      refine TxList.mem_filter_of_payable hlax hd hin1 ?_
      rw [hq1.state, hq1.gas]
      exact hpay
    have hget2 : list2.get t.accountNonce = some t := TxSortedMap.get_eq_some_iff.mpr ⟨hin2, rfl⟩
    rcases ht3.splits.get_cases hget2 with hready | hget3
    · exact Or.inl hready
    · have heq : list4 = list3 := hlocal4 (hlocals.trans hq3.locals ▸ hlocal)
      refine Or.inr ((hrest _).trans ?_)
      rw [heq]
      exact hget3
  · intro a ha
    have hsame : pool3.queue.lookup a = pool.queue.lookup a := by
      rw [hqueue]
      exact hq3.others a ha
    exact (hothers a ha).trans ((hq4.others a ha).trans hsame)

/-! ## Promotion without a new head -/

theorem Promoted.spans {c b e : Nat} (h : Promoted addr txs pool pool')
    (hspan : Spans (listAt pool.pending addr) c b e) (hbe : b ≤ e)
    (htxs : txs.map (fun t => t.accountNonce.toNat) = range' e txs.length) :
    Spans (listAt pool'.pending addr) c b (e + txs.length) := by
  intro n hn
  have hmem : n.toNat ∈ txs.map (fun t => t.accountNonce.toNat) ↔ e ≤ n.toNat ∧
      n.toNat < e + txs.length := by rw [htxs, mem_range'_1]
  have hsome : (listAt pool'.pending addr n).isSome ↔
      n.toNat ∈ txs.map (fun t => t.accountNonce.toNat) ∨ (listAt pool.pending addr n).isSome := by
    simp only [Option.isSome_iff_exists, h.here, mem_map, UInt64.toNat_inj]
    constructor
    · rintro ⟨t, ht | ht⟩
      · exact Or.inl ⟨t, ht⟩
      · exact Or.inr ⟨t, ht⟩
    · rintro (⟨t, ht⟩ | ⟨t, ht⟩)
      · exact ⟨t, Or.inl ht⟩
      · exact ⟨t, Or.inr ht⟩
  rw [hsome, hmem, hspan n hn]
  omega

theorem Promoted.nonce_toNat {first : Nat} (h : Promoted addr txs pool pool') (hne : txs ≠ [])
    (htxs : txs.map (fun t => t.accountNonce.toNat) = range' first txs.length)
    (hmax : ∀ t ∈ txs, t.accountNonce.toNat + 1 < 2 ^ 64) :
    (pool'.pendingNonces.get addr).toNat = first + txs.length ∧ first + txs.length < 2 ^ 64 := by
  obtain ⟨t, ht, hnonce⟩ := nonce_of_getLast? htxs hne
  have hroom := hmax t (mem_of_getLast? ht)
  have hsucc := toNat_nonce_succ hroom
  rw [h.nonce, ht]
  show (t.accountNonce + 1).toNat = _ ∧ _
  omega

theorem Reaches.pending_of_queued (h : Reaches K pool0 F pool) {n : UInt64}
    (ht : listAt pool.queue addr n = some tx) : listAt pool.pending addr n = none :=
  h.inv.eq_none_of_ne (p := .queued) (q := .pending) ht (by simp)

theorem currentState_promoteAccount (pool : TxPool) (addr : Address) (now : Nat) :
    (pool.promoteAccount addr now).1.currentState = pool.currentState :=
  (indexes_promoteAccount pool addr now).currentState

section

variable {readies : List Transaction} (h : Promotes addr list readies pool pool')
  (hl : pool.queue.lookup addr = some list)

include h hl

theorem Promotes.isSome_queue {a : Address} {n : UInt64}
    (hn : (listAt pool'.queue a n).isSome) : (listAt pool.queue a n).isSome := by
  by_cases haddr : a = addr
  · subst haddr
    obtain ⟨t, ht⟩ := Option.isSome_iff_exists.mp hn
    rw [listAt_of_lookup hl, (h.left n t ht).1]
    rfl
  · rwa [listAt, h.others a haddr] at hn

theorem Promotes.allCapped (hc : ∀ a l, pool.queue.lookup a = some l → l.Capped) :
    ∀ a l, pool'.queue.lookup a = some l → l.Capped := by
  intro a l hla
  by_cases haddr : a = addr
  · subst haddr
    exact h.capped (hc a list hl) l hla
  · exact hc a l ((h.others a haddr).symm.trans hla)

theorem Promotes.ahead (ha : Ahead pool) (hs : pool'.currentState = pool.currentState) :
    Ahead pool' where
  waits a n hn := by
    rw [Waits, hs]
    exact ha.waits a n (h.isSome_queue hl hn)
  capped := h.allCapped hl ha.capped

/-- Either nothing is ready, or what is ready starts with a nonce that was queued and not
pending, and the virtual nonce comes after it. -/
theorem Promotes.ready_cases (hr : Reaches K pool0 F pool)
    (hroom : ∀ n, (listAt pool.queue addr n).isSome → n.toNat + 1 < 2 ^ 64) :
    readies = [] ∨ ∃ t ∈ readies, t.accountNonce.toNat ≤ (pool.pendingNonces.get addr).toNat ∧
      (listAt pool.queue addr t.accountNonce).isSome ∧
      listAt pool.pending addr t.accountNonce = none ∧
      readies.map (fun u => u.accountNonce.toNat) =
        range' t.accountNonce.toNat readies.length ∧
      (pool'.pendingNonces.get addr).toNat = t.accountNonce.toNat + readies.length ∧
      t.accountNonce.toNat + readies.length < 2 ^ 64 := by
  have hqueued : ∀ u ∈ readies, listAt pool.queue addr u.accountNonce = some u := fun u hu => by
    rw [listAt_of_lookup hl]
    exact (h.ready u hu).1
  obtain ⟨first, hfirst, hnonces⟩ := h.start fun t ht => hroom _ (by
    rw [listAt_of_lookup hl]
    exact Option.isSome_of_eq_some (TxSortedMap.get_eq_some_iff.mpr ⟨ht, rfl⟩))
  cases hreadies : readies with
  | nil => exact Or.inl rfl
  | cons t ts =>
    rw [← hreadies]
    have ht : t ∈ readies := hreadies ▸ mem_cons_self
    obtain rfl : t.accountNonce.toNat = first := by
      rw [hreadies] at hnonces
      exact (cons.inj hnonces).1
    have hnext := h.promoted.nonce_toNat (hreadies ▸ cons_ne_nil t ts) hnonces fun u hu =>
      hroom _ (Option.isSome_of_eq_some (hqueued u hu))
    exact Or.inr ⟨t, ht, hfirst, Option.isSome_of_eq_some (hqueued t ht),
      hr.pending_of_queued (hqueued t ht), hnonces, hnext⟩

end

theorem Promoted.allStrict (h : Promoted addr txs pool pool') (hs : AllStrict pool) :
    AllStrict pool' := by
  intro a l hl
  by_cases ha : a = addr
  · subst ha
    exact h.strict (hs a) l hl
  · exact hs a l ((h.elsewhere a ha).symm.trans hl)

theorem Promotes.settledAt {readies : List Transaction} (h : Promotes addr list readies pool pool')
    (hr : Reaches K pool0 F pool) (hl : pool.queue.lookup addr = some list)
    (hw : ∀ n, (listAt pool.queue addr n).isSome → pool.Waits addr n)
    (hset : SettledAt pool addr) (hs : pool'.currentState = pool.currentState) :
    SettledAt pool' addr := by
  obtain ⟨e, hspan, hlow, hhigh, he⟩ := hset
  unfold SettledAt
  rw [hs]
  rcases h.ready_cases hl hr (fun n hn => (hw n hn).2) with
    rfl | ⟨t, -, hle, hqueued, hfree, hnonces, hnext, hroom⟩
  · have hnone : pool'.pendingNonces.get addr = pool.pendingNonces.get addr := h.promoted.nonce
    rw [hnone, h.promoted.listAt_eq]
    exact ⟨e, hspan, hlow, hhigh, he⟩
  · -- the first one is queued, so it is not in the pending range
    have hfirst : t.accountNonce.toNat = e := by
      have hwaits := (hw _ hqueued).1
      have hout := mt (hspan.isSome t.accountNonce).mpr (by simp [hfree])
      omega
    rw [hfirst] at hnonces hnext hroom
    exact ⟨e + readies.length, h.promoted.spans hspan (hlow.trans hhigh) hnonces, by omega,
      by omega, hroom⟩

theorem promoteAccount_of_none (hl : pool.queue.lookup addr = none) (now : Nat) :
    (pool.promoteAccount addr now).1 = pool := by
  unfold TxPool.promoteAccount
  rw [hl]

theorem Settled.promoteAccount (h : Settled pool) (hr : Reaches Legally pool0 [] pool)
    (addr : Address) (now : Nat) : Settled (pool.promoteAccount addr now).1 := by
  cases hl : pool.queue.lookup addr with
  | none =>
    rw [promoteAccount_of_none hl]
    exact h
  | some list =>
    obtain ⟨readies, hp⟩ := promoteAccount_spec hr hl now
    have hstate := currentState_promoteAccount pool addr now
    refine ⟨hp.ahead hl h.ahead hstate, hp.promoted.allStrict h.strict, fun a => ?_⟩
    by_cases ha : a = addr
    · subst ha
      exact hp.settledAt hr hl (h.ahead.waits a) (h.settled a) hstate
    · exact (h.settled a).frame (hp.promoted.elsewhere.listAt_eq ha) (hp.promoted.nonces a ha)
        hstate

theorem Settled.promoteExecutables (h : Settled pool) (hr : Reaches Legally pool0 [] pool)
    (now : Address → Nat) (accounts : List Address) :
    Settled (pool.promoteExecutables now accounts).1 :=
  (promoteExecutables_induction (P := fun pool => Settled pool ∧ Reaches Legally pool0 [] pool)
    (fun _ addr time h => ⟨h.1.promoteAccount h.2 addr time,
      h.2.promoteAccount (fun _ => trivial) addr time⟩) now accounts ⟨h, hr⟩).1

end GethComments.TxPool
