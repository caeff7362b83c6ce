import GethComments.Core.PoolPromotion

/-!
# The nonces under a new head

When the head of the chain changes, the state's nonces change under the pending lists, and the
virtual nonces start again from the state's. Promotion and demotion of all accounts then lead
back to ranges that start at the state's nonces.

* `Stale`: an account after the change of the head;
* `Fits`: an account whose queue has been promoted;
* `Stale.promoteExecutables`: promotion leads every account from one to the other;
* `Settled.demoteUnexecutables`: demotion settles all of them.
-/

namespace GethComments.TxPool

open Option

variable [HashFns] {pool0 pool pool' : TxPool} {addr : Address} {list list' : TxList}
  {tx : Transaction} {K : CMEvent → Prop} {F readies : List Transaction} {b e v : Nat}

/-! ## Accounts between two heads -/

/-- The virtual nonce is the state's. The pending nonces are a range, and no queued nonce is
below it; both are as the old head left them. -/
structure Stale (pool : TxPool) (addr : Address) : Prop where
  nonce : pool.pendingNonces.get addr = pool.currentState.nonce addr
  range : ∃ b e, Spans (listAt pool.pending addr) 0 b e ∧ e < 2 ^ 64 ∧
    ∀ n, (listAt pool.queue addr n).isSome → b ≤ n.toNat

/-- From the state's nonce on the pending nonces are a range. Either nothing has been promoted,
or the range is what has been promoted. -/
def Fits (pool : TxPool) (addr : Address) : Prop :=
  ∃ b e, (pool.currentState.nonce addr).toNat ≤ b ∧ e < 2 ^ 64 ∧
    Spans (listAt pool.pending addr) (pool.currentState.nonce addr).toNat b e ∧
    (pool.pendingNonces.get addr = pool.currentState.nonce addr ∨
      b = (pool.currentState.nonce addr).toNat ∧ b ≤ e ∧ (pool.pendingNonces.get addr).toNat = e ∧
      ∀ n t, listAt pool.pending addr n = some t → b ≤ n.toNat →
        TxList.Payable (pool.currentState.balance addr) pool.currentMaxGas t)

/-- What the queues keep from the old head. -/
structure Roomy (pool : TxPool) : Prop where
  room : ∀ a n, (listAt pool.queue a n).isSome → n.toNat + 1 < 2 ^ 64
  capped : ∀ a l, pool.queue.lookup a = some l → l.Capped

/-- No queued nonce of the account is below the state's. -/
def QueueAhead (pool : TxPool) (addr : Address) : Prop :=
  ∀ n, (listAt pool.queue addr n).isSome → (pool.currentState.nonce addr).toNat ≤ n.toNat

theorem Stale.fits (h : Stale pool addr) : Fits pool addr := by
  obtain ⟨b, e, hspan, he, -⟩ := h.range
  exact ⟨_, e, le_max_right b _, he, hspan.mono _, Or.inl h.nonce⟩

theorem Fits.settledAt (h : Fits pool addr) (hl : pool.pending.lookup addr = none) :
    SettledAt pool addr := by
  obtain ⟨b, e, hb, he, hspan, hv⟩ := h
  have hnone : ∀ n, listAt pool.pending addr n = none := fun n => by simp [listAt, hl]
  have hempty : ∀ n : UInt64, ¬ (b ≤ n.toNat ∧ n.toNat < e) ∨
      n.toNat < (pool.currentState.nonce addr).toNat := by
    intro n
    rcases Nat.lt_or_ge n.toNat (pool.currentState.nonce addr).toNat with hn | hn
    · exact Or.inr hn
    · refine Or.inl fun hin => ?_
      have := (hspan n hn).mpr hin
      simp [hnone] at this
  refine ⟨(pool.currentState.nonce addr).toNat, fun n _ => ?_, ?_⟩
  · simp only [hnone, isSome_none, Bool.false_eq_true, false_iff]
    omega
  · have hs := UInt64.toNat_lt (pool.currentState.nonce addr)
    rcases hv with hv | ⟨rfl, hbe, hv, -⟩
    · rw [hv]
      exact ⟨le_rfl, le_rfl, hs⟩
    · have := hempty (pool.currentState.nonce addr)
      omega

/-! ## Promotion -/

section

variable (h : Promotes addr list readies pool pool')
include h

theorem Promotes.fits (hr : Reaches K pool0 F pool)
    (hl : pool.queue.lookup addr = some list) (hstale : Stale pool addr) (hroom : Roomy pool)
    (hs : pool'.currentState = pool.currentState)
    (hg : pool'.currentMaxGas = pool.currentMaxGas) : Fits pool' addr := by
  obtain ⟨b, e, hspan, he, hqueue⟩ := hstale.range
  rcases h.ready_cases hl hr (hroom.room addr) with
    rfl | ⟨t, ht, hle, hqueued, hfree, hnonces, hnext, hlt⟩
  · refine Stale.fits ⟨?_, b, e, ?_, he, fun n hn => hqueue n (h.isSome_queue hl hn)⟩
    · rw [hs, ← hstale.nonce]
      exact h.promoted.nonce
    · rw [h.promoted.listAt_eq]
      exact hspan
  · have hold := (h.ready t ht).2
    rw [UInt64.lt_iff_toNat_lt] at hold
    rw [hstale.nonce] at hle
    have hfirst : t.accountNonce.toNat = (pool.currentState.nonce addr).toNat := by omega
    -- the first one is queued, so the old range ends before it
    have hend : e ≤ (pool.currentState.nonce addr).toNat := by
      have hin := hqueue _ hqueued
      have hout := mt (hspan.isSome t.accountNonce).mpr (by simp [hfree])
      omega
    have hempty : Spans (listAt pool.pending addr) (pool.currentState.nonce addr).toNat
        (pool.currentState.nonce addr).toNat (pool.currentState.nonce addr).toNat := by
      intro n hn
      rw [hspan.isSome]
      omega
    rw [hfirst] at hnonces hnext hlt
    unfold Fits
    rw [hs, hg]
    refine ⟨_, _, le_rfl, hlt, h.promoted.spans hempty le_rfl hnonces,
      Or.inr ⟨rfl, Nat.le_add_right _ _, hnext, fun n u hu hn => ?_⟩⟩
    rcases (h.promoted.here n u).mp hu with ⟨hmem, -⟩ | hbefore
    · exact h.payable (hroom.capped addr list hl) u hmem
    · have := (hempty n hn).mp (isSome_of_eq_some hbefore)
      omega

theorem Promotes.roomy
    (hl : pool.queue.lookup addr = some list) (hroom : Roomy pool) : Roomy pool' where
  room a n hn := hroom.room a n (h.isSome_queue hl hn)
  capped := h.allCapped hl hroom.capped

theorem Promotes.queueAhead
    (hs : pool'.currentState = pool.currentState) : QueueAhead pool' addr := by
  intro n hn
  obtain ⟨t, ht⟩ := isSome_iff_exists.mp hn
  rw [hs]
  exact UInt64.le_iff_toNat_le.mp (UInt64.not_lt.mp (h.left n t ht).2)

end

/-- The other accounts are left alone. -/
structure SameAt (a : Address) (pool pool' : TxPool) : Prop where
  pending : listAt pool'.pending a = listAt pool.pending a
  queue : pool'.queue.lookup a = pool.queue.lookup a
  nonce : pool'.pendingNonces.get a = pool.pendingNonces.get a
  state : pool'.currentState = pool.currentState
  gas : pool'.currentMaxGas = pool.currentMaxGas

variable {a : Address}

theorem SameAt.listAt_queue (h : SameAt a pool pool') :
    listAt pool'.queue a = listAt pool.queue a := by
  funext n
  simp only [listAt, h.queue]

theorem Stale.frame (h : Stale pool a) (hs : SameAt a pool pool') : Stale pool' a where
  nonce := by rw [hs.nonce, hs.state, h.nonce]
  range := by
    rw [hs.pending, hs.listAt_queue]
    exact h.range

theorem Fits.frame (h : Fits pool a) (hp : listAt pool'.pending a = listAt pool.pending a)
    (hn : pool'.pendingNonces.get a = pool.pendingNonces.get a)
    (hs : pool'.currentState = pool.currentState)
    (hg : pool'.currentMaxGas = pool.currentMaxGas) : Fits pool' a := by
  unfold Fits
  rw [hp, hn, hs, hg]
  exact h

theorem QueueAhead.frame (h : QueueAhead pool a) (hs : SameAt a pool pool') :
    QueueAhead pool' a := by
  unfold QueueAhead
  rw [hs.listAt_queue, hs.state]
  exact h

theorem promoteAccount_each (hr : Reaches Legally pool0 [] pool) (hstrict : AllStrict pool)
    (hroom : Roomy pool) (addr : Address) (now : Nat) :
    AllStrict (pool.promoteAccount addr now).1 ∧ Roomy (pool.promoteAccount addr now).1 ∧
      (Stale pool addr → Fits (pool.promoteAccount addr now).1 addr ∧
        QueueAhead (pool.promoteAccount addr now).1 addr) ∧
      ∀ a, a ≠ addr → SameAt a pool (pool.promoteAccount addr now).1 := by
  cases hl : pool.queue.lookup addr with
  | none =>
    rw [promoteAccount_of_none hl]
    refine ⟨hstrict, hroom, fun h => ⟨h.fits, fun n hn => ?_⟩, fun a _ => ⟨rfl, rfl, rfl, rfl, rfl⟩⟩
    simp [listAt, hl] at hn
  | some list =>
    obtain ⟨readies, hp⟩ := promoteAccount_spec hr hl now
    have hi := indexes_promoteAccount pool addr now
    refine ⟨hp.promoted.allStrict hstrict, hp.roomy hl hroom, fun h => ⟨?_, ?_⟩, fun a ha => ?_⟩
    · exact hp.fits hr hl h hroom hi.currentState hi.currentMaxGas
    · exact hp.queueAhead hi.currentState
    · exact ⟨hp.promoted.elsewhere.listAt_eq ha, hp.others a ha, hp.promoted.nonces a ha,
        hi.currentState, hi.currentMaxGas⟩

theorem promoteExecutables_eq_foldl (pool : TxPool) (now : Address → Nat)
    (accounts : List Address) :
    (pool.promoteExecutables now accounts).1 =
      accounts.foldl (fun pool addr => (pool.promoteAccount addr (now addr)).1) pool := by
  induction accounts generalizing pool with
  | nil => rfl
  | cons addr accounts ih => exact ih (pool.promoteAccount addr (now addr)).1

omit [HashFns] in
theorem mem_visit {keys order : List Address} : a ∈ visit keys order ↔ a ∈ keys := by
  simp only [visit, List.mem_append, List.mem_filter, List.mem_dedup, decide_eq_true_eq]
  tauto

theorem Stale.promoteExecutables (h : ∀ a, Stale pool a) (hr : Reaches Legally pool0 [] pool)
    (hstrict : AllStrict pool) (hroom : Roomy pool) (now : Address → Nat) (order : List Address) :
    let pool' := (pool.promoteExecutables now (visit pool.queue.keys order)).1
    (∀ a, Fits pool' a) ∧ Ahead pool' ∧ AllStrict pool' := by
  intro pool'
  have hpool' : pool' = (visit pool.queue.keys order).foldl
      (fun pool addr => (pool.promoteAccount addr (now addr)).1) pool :=
    promoteExecutables_eq_foldl pool now _
  have hkeys : ∀ a, a ∉ pool.queue.keys → pool.queue.lookup a = none := fun a ha =>
    AList.lookup_eq_none.mpr ha
  obtain ⟨⟨-, hstrict', hroom'⟩, hvisited, hothers⟩ := Run.foldl_each
    (I := fun pool => Reaches Legally pool0 [] pool ∧ AllStrict pool ∧ Roomy pool)
    (P := fun p a => Stale p a ∧ (a ∉ pool.queue.keys → p.queue.lookup a = none))
    (Q := fun p a => Fits p a ∧ QueueAhead p a) (visit pool.queue.keys order)
    (nodup_visit pool.queue.nodupKeys order)
    (fun p a hI hP => by
      obtain ⟨hs, hq, hfits, -⟩ := promoteAccount_each hI.1 hI.2.1 hI.2.2 a (now a)
      exact ⟨⟨hI.1.promoteAccount (fun _ => trivial) a (now a), hs, hq⟩, hfits hP.1⟩)
    (fun p a b hI _ hne hb => by
      have hsame := (promoteAccount_each hI.1 hI.2.1 hI.2.2 a (now a)).2.2.2 b hne
      exact ⟨hb.1.frame hsame, fun hk => hsame.queue.trans (hb.2 hk)⟩)
    (fun p a b hI _ hne hb => by
      have hsame := (promoteAccount_each hI.1 hI.2.1 hI.2.2 a (now a)).2.2.2 b hne
      exact ⟨hb.1.frame hsame.pending hsame.nonce hsame.state hsame.gas, hb.2.frame hsame⟩)
    pool ⟨hr, hstrict, hroom⟩ (fun a _ => ⟨h a, hkeys a⟩)
  rw [← hpool'] at hstrict' hroom' hvisited hothers
  have hall : ∀ a, Fits pool' a ∧ QueueAhead pool' a := by
    intro a
    by_cases ha : a ∈ visit pool.queue.keys order
    · exact hvisited a ha
    · obtain ⟨hstale, hnone⟩ := (hothers a ha).1 ⟨h a, hkeys a⟩
      refine ⟨hstale.fits, fun n hn => ?_⟩
      simp [listAt, hnone (mt mem_visit.mpr ha)] at hn
  exact ⟨fun a => (hall a).1, ⟨fun a n hn => ⟨(hall a).2 n hn, hroom'.room a n hn⟩, hroom'.capped⟩,
    hstrict'⟩

/-! ## Demotion -/

omit [HashFns] in
theorem spans_filtered {nonce : UInt64} {costLimit : Int} {gasLimit : UInt64}
    {olds drops invalids : List Transaction} {list1 list2 : TxList} (hs : list.strict = true)
    (hb : nonce.toNat ≤ b) (hspan : Spans list.get nonce.toNat b e)
    (hf : list.forward nonce = (olds, list1))
    (hd : list1.filter costLimit gasLimit = (drops, invalids, list2)) :
    ∃ e' ≤ e, Spans list2.get 0 b e' ∧ (b ≤ e → b ≤ e') ∧
      (∀ t ∈ invalids, list.get t.accountNonce = some t ∧ b ≤ t.accountNonce.toNat ∧
        t.accountNonce.toNat < e) ∧
      ((∀ n t, list.get n = some t → b ≤ n.toNat → TxList.Payable costLimit gasLimit t) →
        Spans list2.get 0 b e) := by
  cases hf
  have hspan1 := TxList.spans_forward hspan hb
  have hs1 : (list.forward nonce).2.strict = true := hs
  obtain ⟨e', hspan2, hle, hbe, hinv⟩ := TxList.spans_filter hs1 hspan1 hd
  refine ⟨e', hle, hspan2, hbe, fun t ht => ?_, fun hpay n hn => ?_⟩
  · have hget := hinv t ht
    obtain ⟨hlo, hhi⟩ := (hspan1.isSome _).mp (isSome_of_eq_some hget)
    exact ⟨((list.get_forward nonce _ t).mp hget).1, hlo, hhi⟩
  · have hall : ∀ t ∈ (list.forward nonce).2.txs.txs, TxList.Payable costLimit gasLimit t := by
      intro t ht
      have hget : (list.forward nonce).2.get t.accountNonce = some t :=
        TxSortedMap.get_eq_some_iff.mpr ⟨ht, rfl⟩
      have hin := (hspan1.isSome _).mp (isSome_of_eq_some hget)
      exact hpay _ t ((list.get_forward nonce _ t).mp hget).1 hin.1
    rw [TxList.get_filter_of_payable hall hd]
    exact hspan1 n hn

theorem queue_forgetAll (pool : TxPool) (txs : List Transaction) :
    (pool.forgetAll txs).queue = pool.queue := by
  induction txs generalizing pool with
  | nil => rfl
  | cons t txs ih => exact ih (pool.forgetTx t)

/-- A stage of the demotion of an account, which leaves it with `list`. -/
structure Demoting (addr : Address) (list : TxList) (pool pool' : TxPool) : Prop where
  here : pool'.pending.lookup addr = some list
  elsewhere : SameElsewhere addr pool pool'
  nonces : pool'.pendingNonces = pool.pendingNonces
  indexes : Indexes pool pool'
  ahead : Ahead pool'

theorem Demoting.forward (h : Demoting addr list pool pool') (list' : TxList)
    (olds : List Transaction) :
    Demoting addr list' pool ((pool'.setPending addr list').forgetAll olds) where
  here := by simp
  elsewhere := (h.elsewhere.trans (sameElsewhere_setPending pool' addr list')).trans
    (.of_pending (pending_forgetAll _ _))
  nonces := (pendingNonces_forgetAll _ _).trans h.nonces
  indexes := h.indexes.trans ((indexes_setPending pool' addr list').trans (indexes_forgetAll _ _))
  ahead := h.ahead.frame (queue_forgetAll _ _) (indexes_forgetAll _ _).currentState

theorem Demoting.filter (h : Demoting addr list pool pool') (list' : TxList)
    (drops invalids : List Transaction) (count : Nat)
    (hw : ∀ t ∈ invalids, pool.sender t = addr ∧ pool.Waits addr t.accountNonce) :
    Demoting addr list' pool ((((pool'.setPending addr list').unlockAll drops).pricedRemoved
      count).enqueueAll invalids) := by
  have hi : Indexes pool (((pool'.setPending addr list').unlockAll drops).pricedRemoved count) :=
    h.indexes.trans ((indexes_setPending pool' addr list').trans
      ((indexes_unlockAll _ drops).trans (indexes_pricedRemoved _ count)))
  refine ⟨by simp [TxPool.pricedRemoved], ?_, ?_, hi.trans (indexes_enqueueAll _ _), ?_⟩
  · refine (h.elsewhere.trans (sameElsewhere_setPending pool' addr list')).trans (.of_pending ?_)
    exact (pending_enqueueAll _ _).trans (pending_unlockAll _ _)
  · exact (pendingNonces_enqueueAll _ _).trans ((pendingNonces_unlockAll _ _).trans h.nonces)
  · refine Ahead.enqueueAll ?_ invalids fun t ht => ?_
    · exact h.ahead.frame (queue_unlockAll _ _) (indexes_unlockAll _ _).currentState
    · obtain ⟨hsender, hwaits⟩ := hw t ht
      rw [sender, hi.signer, ← sender, hsender, Waits, hi.currentState]
      exact hwaits

theorem Demoting.postponeGapped (h : Demoting addr list pool pool') (hs : list.strict = true)
    (hb : (pool.currentState.nonce addr).toNat ≤ b) (hspan : Spans list.get 0 b e)
    (he : e < 2 ^ 64)
    (hv : v = (pool.currentState.nonce addr).toNat ∨
      b = (pool.currentState.nonce addr).toNat ∧ b ≤ e ∧ v = e)
    (hsender : ∀ t ∈ list.txs.txs, pool.sender t = addr) :
    ∃ list' e', Demoting addr list' pool
        (pool'.postponeGapped addr list (pool.currentState.nonce addr)).1 ∧
      (pool'.postponeGapped addr list (pool.currentState.nonce addr)).2 = list' ∧
      list'.strict = true ∧ Spans list'.get 0 (pool.currentState.nonce addr).toNat e' ∧
      (pool.currentState.nonce addr).toNat ≤ v ∧ v ≤ e' ∧ e' < 2 ^ 64 := by
  have hlt := UInt64.toNat_lt (pool.currentState.nonce addr)
  have hfirst := hspan.isSome (pool.currentState.nonce addr)
  unfold TxPool.postponeGapped
  by_cases hget : (list.get (pool.currentState.nonce addr)).isSome
  · have hin := hfirst.mp hget
    obtain rfl : b = (pool.currentState.nonce addr).toNat := by omega
    rw [if_neg (by simp [isNone_eq_false_iff.mpr hget])]
    exact ⟨list, e, h, rfl, hs, hspan, by omega, by omega, he⟩
  · -- nothing is at the state's nonce, so nothing has been promoted
    have hout := mt hfirst.mpr hget
    have hv' : v = (pool.currentState.nonce addr).toNat := by omega
    subst hv'
    split
    · rcases hc : list.cap 0 with ⟨gapped, list'⟩
      have htakes := TxList.takes_cap hc
      have hempty : list'.txs.txs = [] := by
        cases hc
        rfl
      refine ⟨list', _, ?_, rfl, htakes.strict.trans hs, fun n _ => ?_, le_rfl, le_rfl, hlt⟩
      · show Demoting addr list' pool ((pool'.setPending addr list').enqueueAll gapped)
        refine ⟨by simp, ?_, ?_, ?_, ?_⟩
        · exact (h.elsewhere.trans (sameElsewhere_setPending pool' addr list')).trans
            (.of_pending (pending_enqueueAll _ _))
        · exact (pendingNonces_enqueueAll _ _).trans h.nonces
        · exact h.indexes.trans ((indexes_setPending pool' addr list').trans
            (indexes_enqueueAll _ _))
        · have hset : Ahead (pool'.setPending addr list') := h.ahead.frame rfl rfl
          refine hset.enqueueAll gapped fun t ht => ?_
          have hmem : t ∈ list.txs.txs := htakes.splits.subset (List.mem_append_left _ ht)
          have hin := (hspan.isSome t.accountNonce).mp
            (isSome_of_eq_some (TxSortedMap.get_eq_some_iff.mpr ⟨hmem, rfl⟩))
          have hsend : (pool'.setPending addr list').sender t = addr := by
            have hsigner : (pool'.setPending addr list').signer = pool.signer := h.indexes.signer
            rw [sender, hsigner]
            exact hsender t hmem
          rw [hsend, Waits]
          show (pool'.currentState.nonce addr).toNat ≤ _ ∧ _
          rw [h.indexes.currentState]
          omega
      · have hnone : list'.get n = none := by simp [TxList.get, TxSortedMap.get, hempty]
        simp only [hnone, isSome_none, Bool.false_eq_true, false_iff]
        omega
    · next hgap =>
      have hlen : list.txs.txs = [] := by
        have hnone : list.get (pool.currentState.nonce addr) = none := by simpa using hget
        simpa [hnone, TxList.len, TxSortedMap.len] using hgap
      refine ⟨list, _, h, rfl, hs, fun n _ => ?_, le_rfl, le_rfl, hlt⟩
      have hnone : list.get n = none := by simp [TxList.get, TxSortedMap.get, hlen]
      simp only [hnone, isSome_none, Bool.false_eq_true, false_iff]
      omega

theorem demoteAccount_each (hr : Reaches Legally pool0 [] pool) (ha : Ahead pool)
    (hstrict : AllStrict pool) (addr : Address) (hfits : Fits pool addr) :
    Ahead (pool.demoteAccount addr) ∧ AllStrict (pool.demoteAccount addr) ∧
      SettledAt (pool.demoteAccount addr) addr ∧ SameElsewhere addr pool (pool.demoteAccount addr) ∧
      (pool.demoteAccount addr).pendingNonces = pool.pendingNonces := by
  unfold TxPool.demoteAccount
  cases hl : pool.pending.lookup addr with
  | none => exact ⟨ha, hstrict, hfits.settledAt hl, .of_pending rfl, rfl⟩
  | some list =>
    obtain ⟨b, e, hb, he, hspan, hv⟩ := hfits
    rw [listAt_of_lookup hl] at hspan hv
    have hs := hstrict addr list hl
    rcases hf : list.forward (pool.currentState.nonce addr) with ⟨olds, list1⟩
    have hd0 : Demoting addr list pool pool := ⟨hl, .of_pending rfl, rfl, Indexes.refl pool, ha⟩
    have hd1 := hd0.forward list1 olds
    dsimp only
    rw [hf]
    dsimp only
    generalize (pool.setPending addr list1).forgetAll olds = pool1 at hd1 ⊢
    rcases hd : list1.filter (pool1.currentState.balance addr) pool1.currentMaxGas with
      ⟨drops, invalids, list2⟩
    have hd' := hd
    rw [hd1.indexes.currentState, hd1.indexes.currentMaxGas] at hd'
    obtain ⟨e', hle, hspan2, hbe, hinv, hpay⟩ := spans_filtered hs hb hspan hf hd'
    have hd2 := hd1.filter list2 drops invalids (olds.length + drops.length) fun t ht => by
      obtain ⟨hget, hlow, hhigh⟩ := hinv t ht
      exact ⟨hr.sender_of_pending hl hget, by omega, by omega⟩
    dsimp only
    generalize (((pool1.setPending addr list2).unlockAll drops).pricedRemoved
      (olds.length + drops.length)).enqueueAll invalids = pool2 at hd2 ⊢
    have ht1 := TxList.takes_forward hf
    have ht2 := TxList.takes_filter hd
    -- either the virtual nonce is the state's, or the filter has left all there was
    obtain ⟨e2, he2, hspan2', hv2⟩ : ∃ e2 < 2 ^ 64, Spans list2.get 0 b e2 ∧
        ((pool.pendingNonces.get addr).toNat = (pool.currentState.nonce addr).toNat ∨
          b = (pool.currentState.nonce addr).toNat ∧ b ≤ e2 ∧
            (pool.pendingNonces.get addr).toNat = e2) := by
      rcases hv with hv | ⟨hbs, hble, hv, hpayable⟩
      · exact ⟨e', by omega, hspan2, Or.inl (congrArg UInt64.toNat hv)⟩
      · exact ⟨e, he, hpay hpayable, Or.inr ⟨hbs, hble, hv⟩⟩
    obtain ⟨list3, e3, hd3, heq, hs3, hspan3, hlow, hhigh, he3⟩ := hd2.postponeGapped
      (ht2.strict.trans (ht1.strict.trans hs)) hb hspan2' he2 hv2 fun t ht => by
        have hmem : t ∈ list.txs.txs := ht1.splits.subset (List.mem_append_right _
          (ht2.splits.subset (List.mem_append_right _ ht)))
        exact hr.sender_of_pending hl (TxSortedMap.get_eq_some_iff.mpr ⟨hmem, rfl⟩)
    generalize pool2.postponeGapped addr list2 (pool.currentState.nonce addr) = r at hd3 heq ⊢
    obtain ⟨pool3, list3'⟩ := r
    subst heq
    have hrep : Repends addr list3'.get pool (pool3.deletePendingIfEmpty addr list3') :=
      Repends.deletePendingIfEmpty ⟨listAt_of_lookup hd3.here, fun l hla =>
        some.inj (hd3.here.symm.trans hla) ▸ hs3, hd3.elsewhere⟩ hd3.here
    have hi := hd3.indexes.trans (indexes_deletePendingIfEmpty pool3 addr list3')
    have hnonces : (pool3.deletePendingIfEmpty addr list3').pendingNonces = pool.pendingNonces :=
      (pendingNonces_deletePendingIfEmpty _ _ _).trans hd3.nonces
    refine ⟨?_, hrep.allStrict hstrict, ?_, hrep.elsewhere, hnonces⟩
    · exact hd3.ahead.frame (queue_deletePendingIfEmpty _ _ _)
        (indexes_deletePendingIfEmpty _ _ _).currentState
    · unfold SettledAt
      rw [hrep.here, hi.currentState, hnonces]
      exact ⟨e3, hspan3, hlow, hhigh, he3⟩

theorem Settled.demoteUnexecutables (h : ∀ a, Fits pool a) (hr : Reaches Legally pool0 [] pool)
    (ha : Ahead pool) (hstrict : AllStrict pool) (order : List Address) :
    Settled (pool.demoteUnexecutables order) := by
  unfold TxPool.demoteUnexecutables
  have hkeys : ∀ a, a ∉ pool.pending.keys → pool.pending.lookup a = none := fun a ha =>
    AList.lookup_eq_none.mpr ha
  obtain ⟨⟨-, ha', hstrict'⟩, hvisited, hothers⟩ := Run.foldl_each
    (I := fun pool => Reaches Legally pool0 [] pool ∧ Ahead pool ∧ AllStrict pool)
    (P := fun p a => Fits p a ∧ (a ∉ pool.pending.keys → p.pending.lookup a = none))
    (Q := fun p a => SettledAt p a) (visit pool.pending.keys order)
    (nodup_visit pool.pending.nodupKeys order)
    (fun p a hI hP => by
      obtain ⟨hq, hs, hsettled, -⟩ := demoteAccount_each hI.1 hI.2.1 hI.2.2 a hP.1
      exact ⟨⟨hI.1.demoteAccount (fun _ => trivial) (fun _ => trivial) a, hq, hs⟩, hsettled⟩)
    (fun p a b hI hP hne hb => by
      obtain ⟨-, -, -, helse, hn⟩ := demoteAccount_each hI.1 hI.2.1 hI.2.2 a hP.1
      have hi := indexes_demoteAccount p a
      exact ⟨hb.1.frame (helse.listAt_eq hne) (by rw [hn]) hi.currentState hi.currentMaxGas,
        fun hk => (helse b hne).trans (hb.2 hk)⟩)
    (fun p a b hI hP hne hb => by
      obtain ⟨-, -, -, helse, hn⟩ := demoteAccount_each hI.1 hI.2.1 hI.2.2 a hP.1
      have hi := indexes_demoteAccount p a
      exact hb.frame (helse.listAt_eq hne) (by rw [hn]) hi.currentState)
    pool ⟨hr, ha, hstrict⟩ (fun a _ => ⟨h a, hkeys a⟩)
  refine ⟨ha', hstrict', fun a => ?_⟩
  by_cases hv : a ∈ visit pool.pending.keys order
  · exact hvisited a hv
  · obtain ⟨hfits, hnone⟩ := (hothers a hv).1 ⟨h a, hkeys a⟩
    exact hfits.settledAt (hnone (mt mem_visit.mpr hv))

end GethComments.TxPool
