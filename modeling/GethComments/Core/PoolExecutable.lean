import GethComments.Core.PoolDemotion
import GethComments.Core.PoolReinjection

/-!
# Pending transactions are executable

After a completed `runReorg` the pending nonces of an account are a range from the nonce of its
state on, and the virtual nonce is the one after it.

* `reset_of_recorded`: where the outputs of all blocks are recorded a new head reinjects nothing;
* `Settled.runReorg`, `Settled.call`: the invariant along a run;
* `pending_executable`: the result, for runs whose heads are found and whose nonces have a
  successor;
* `pending_not_executable`: a run in which the state of a new head is missing.
-/

namespace GethComments.TxPool

open Option

variable [HashFns] {pool0 pool : TxPool} {addr : Address} {tx : Transaction}
  {txs : List Transaction} {oldHead : Option Header} {newHead : Header}

/-! ## A new head -/

/-- `reset` finds the blocks between the heads and the state of the new one. -/
def FindsHead (pool : TxPool) (oldHead : Option Header) (newHead : Header) : Prop :=
  ((oldHead.map fun old => reinject pool.chain old newHead).getD (some [])).isSome ∧
    (pool.chain.stateAt newHead.root).isSome

theorem validateCM_of_recorded {db : CMdb} (h : ∀ k, tx.Creates k → (db k).isSome) :
    ∃ err, validateCM db tx = some err := by
  cases hv : validateCM db tx with
  | some err => exact ⟨err, rfl⟩
  | none =>
    rcases id_of_validateCM_eq_none hv with h1 | h0
    · have := h (cmHash tx.cmV) (Or.inl ⟨h1, rfl⟩)
      simp [(validateCM_purchase_eq_none h1).mp hv] at this
    · have := h (cmHash tx.cmS) (Or.inr ⟨h0, Or.inl rfl⟩)
      simp [((validateCM_transfer_eq_none h0).mp hv).2.1] at this

theorem add_of_recorded (h : ∀ k, tx.Creates k → (pool.chain.cmdb k).isSome) (isLocal : Bool) :
    ∃ err, pool.add tx isLocal = (pool, .error err) := by
  obtain ⟨err, herr⟩ := validateCM_of_recorded h
  exact ⟨_, add_of_validateCM herr isLocal⟩

theorem addTxsLocked_of_recorded (pool : TxPool) (isLocal : Bool)
    (h : ∀ tx ∈ txs, ∀ k, tx.Creates k → (pool.chain.cmdb k).isSome) :
    (pool.addTxsLocked isLocal txs).1 = pool := by
  induction txs with
  | nil => rfl
  | cons t txs ih =>
    obtain ⟨err, herr⟩ := add_of_recorded (h t List.mem_cons_self) isLocal
    rw [(addTxsLocked_cons pool isLocal t txs).1, herr]
    exact ih fun u hu => h u (List.mem_cons_of_mem t hu)

theorem recorded_of_reinject {chain : BlockChain} (h : chain.OutputsRecorded) {oldHead : Header}
    (hr : reinject chain oldHead newHead = some txs) :
    ∀ tx ∈ txs, ∀ k, tx.Creates k → (chain.cmdb k).isSome := by
  unfold reinject at hr
  split at hr
  · cases hr
    simp
  · dsimp only at hr
    split at hr
    · cases hr
      simp
    · simp only [bind_eq_bind, bind_eq_some_iff] at hr
      obtain ⟨rem, hrem, add, -, hr⟩ := hr
      split at hr
      · cases hr
      · next discarded included hchains =>
        cases hr
        intro tx htx k hk
        obtain ⟨b, hb, htxb⟩ := List.mem_flatMap.mp (List.mem_filter.mp htx).1
        obtain ⟨n, hash, hstored⟩ := blocks_of_reorgChains ⟨_, _, hrem⟩ hchains b hb
        exact h n hash b hstored tx htxb k hk

theorem reset_of_recorded (h : pool.chain.OutputsRecorded) (hf : pool.FindsHead oldHead newHead) :
    ∃ statedb, pool.reset oldHead newHead = pool.setHead statedb newHead := by
  obtain ⟨hfound, hstate⟩ := hf
  obtain ⟨txs, htxs⟩ := isSome_iff_exists.mp hfound
  obtain ⟨statedb, hstate⟩ := isSome_iff_exists.mp hstate
  have hrec : ∀ tx ∈ txs, ∀ k, tx.Creates k → (pool.chain.cmdb k).isSome := by
    cases oldHead with
    | none =>
      cases htxs
      simp
    | some old => exact recorded_of_reinject h htxs
  refine ⟨statedb, ?_⟩
  unfold reset
  rw [htxs]
  dsimp only
  rw [hstate]
  exact addTxsLocked_of_recorded (pool.setHead statedb newHead) false hrec

theorem Settled.setHead (h : Settled pool) (statedb : StateDB) (newHead : Header) :
    (∀ a, Stale (pool.setHead statedb newHead) a) ∧ Roomy (pool.setHead statedb newHead) ∧
      AllStrict (pool.setHead statedb newHead) := by
  refine ⟨fun a => ⟨rfl, ?_⟩, ⟨fun a n hn => (h.ahead.waits a n hn).2, h.ahead.capped⟩, h.strict⟩
  obtain ⟨e, hspan, -, -, he⟩ := h.settled a
  exact ⟨_, e, hspan, he, fun n hn => (h.ahead.waits a n hn).1⟩

/-! ## The virtual nonces -/

omit [HashFns] in
theorem get_foldl_set (es : List (Sigma fun _ : Address => TxList)) (hnd : es.NodupKeys)
    (nonces : TxNoncer) (a : Address) :
    (es.foldl (fun nonces e => (e.2.flatten.getLast?.map fun tx =>
      nonces.set e.1 (tx.accountNonce + 1)).getD nonces) nonces).get a =
      (((es.dlookup a).bind fun l => l.flatten.getLast?).map fun tx =>
        tx.accountNonce + 1).getD (nonces.get a) := by
  induction es generalizing nonces with
  | nil => rfl
  | cons e es ih =>
    obtain ⟨b, l⟩ := e
    obtain ⟨hb, hnd⟩ := List.nodupKeys_cons.mp hnd
    rw [List.foldl_cons, ih hnd]
    by_cases ha : a = b
    · subst ha
      have hnone : es.dlookup a = none := List.dlookup_eq_none.mpr hb
      rw [hnone, List.dlookup_cons_eq]
      cases hlast : l.flatten.getLast? with
      | none => simp [hlast]
      | some t => simp [hlast, TxNoncer.get, TxNoncer.set]
    · rw [List.dlookup_cons_ne _ _ ha]
      have hsame : ((l.flatten.getLast?.map fun tx =>
          nonces.set b (tx.accountNonce + 1)).getD nonces).get a = nonces.get a := by
        cases l.flatten.getLast? with
        | none => rfl
        | some t => simp [TxNoncer.get, TxNoncer.set, Function.update_of_ne ha]
      rw [hsame]

theorem get_updateNonces (pool : TxPool) (a : Address) : pool.updateNonces.pendingNonces.get a =
      (((pool.pending.lookup a).bind fun l => l.flatten.getLast?).map fun tx =>
        tx.accountNonce + 1).getD (pool.pendingNonces.get a) :=
  get_foldl_set pool.pending.entries pool.pending.nodupKeys pool.pendingNonces a

/-- The pending nonces of the account start at the state's nonce and have no gap, and the virtual
nonce is the next one. -/
structure ExecutableAt (pool : TxPool) (addr : Address) : Prop where
  range : ∀ list, pool.pending.lookup addr = some list →
    list.flatten.map (fun tx => tx.accountNonce.toNat) =
      List.range' (pool.currentState.nonce addr).toNat list.len
  next : ∀ list, pool.pending.lookup addr = some list → ∃ last, list.flatten.getLast? = some last ∧
    (pool.pendingNonces.get addr).toNat = last.accountNonce.toNat + 1
  none : pool.pending.lookup addr = none →
    pool.pendingNonces.get addr = pool.currentState.nonce addr

theorem SettledAt.nonce_of_none (h : SettledAt pool addr) (hl : pool.pending.lookup addr = none) :
    pool.pendingNonces.get addr = pool.currentState.nonce addr := by
  obtain ⟨e, hspan, hlow, hhigh, -⟩ := h
  have hout : ¬ (listAt pool.pending addr (pool.currentState.nonce addr)).isSome := by
    simp [listAt, hl]
  rw [hspan.isSome] at hout
  apply UInt64.toNat_inj.mp
  omega

theorem SettledAt.range (h : SettledAt pool addr) {list : TxList}
    (hl : pool.pending.lookup addr = some list) :
    list.flatten.map (fun tx => tx.accountNonce.toNat) =
        List.range' (pool.currentState.nonce addr).toNat list.len ∧
      (pool.pendingNonces.get addr).toNat ≤ (pool.currentState.nonce addr).toNat + list.len ∧
      (pool.currentState.nonce addr).toNat + list.len < 2 ^ 64 := by
  obtain ⟨e, hspan, hlow, hhigh, he⟩ := h
  obtain ⟨k, rfl⟩ := Nat.exists_eq_add_of_le (hlow.trans hhigh)
  rw [listAt_of_lookup hl] at hspan
  have hlist := (TxSortedMap.spans_iff he.le).mp hspan
  have hk : list.len = k := by simpa [TxList.len, TxSortedMap.len] using congrArg List.length hlist
  rw [hk]
  exact ⟨hlist, hhigh, he⟩

theorem toNat_nonce_updateNonces (h : SettledAt pool addr) {list : TxList}
    (hl : pool.pending.lookup addr = some list) (hne : list.isEmpty = false) :
    ∃ last, list.flatten.getLast? = some last ∧
      (pool.updateNonces.pendingNonces.get addr).toNat = last.accountNonce.toNat + 1 ∧
      last.accountNonce.toNat + 1 = (pool.currentState.nonce addr).toNat + list.len := by
  obtain ⟨hrange, -, hroom⟩ := h.range hl
  have hflat : list.flatten ≠ [] := by
    intro h0
    have hlen : list.len = 0 := congrArg List.length h0
    simp [TxList.isEmpty, hlen] at hne
  obtain ⟨last, hlast, hend⟩ := nonce_of_getLast? hrange hflat
  have hend : last.accountNonce.toNat + 1 = _ + list.len := hend
  refine ⟨last, hlast, ?_, hend⟩
  rw [get_updateNonces, hl, bind_some, hlast]
  exact toNat_nonce_succ (hend ▸ hroom)

theorem Settled.updateNonces (h : Settled pool) (hf : Filled pool) :
    Settled pool.updateNonces ∧ ∀ a, ExecutableAt pool.updateNonces a := by
  have hnone : ∀ a, pool.pending.lookup a = none →
      pool.updateNonces.pendingNonces.get a = pool.pendingNonces.get a := by
    intro a hl
    rw [get_updateNonces, hl]
    rfl
  refine ⟨⟨h.ahead.frame rfl rfl, h.strict, fun a => ?_⟩, fun a => ⟨?_, ?_, ?_⟩⟩
  · cases hl : pool.pending.lookup a with
    | none => exact (h.settled a).frame rfl (hnone a hl) rfl
    | some list =>
      obtain ⟨hrange, -, hroom⟩ := (h.settled a).range hl
      obtain ⟨last, -, hnext, hend⟩ := toNat_nonce_updateNonces (h.settled a) hl (hf a list hl)
      have hget := hnext.trans hend
      refine ⟨_, ?_, hget.ge.trans' (Nat.le_add_right _ _), hget.le, hroom⟩
      show Spans (listAt pool.pending a) 0 _ _
      rw [listAt_of_lookup hl]
      exact (TxSortedMap.spans_iff hroom.le).mpr hrange
  · exact fun list hl => ((h.settled a).range hl).1
  · intro list hl
    obtain ⟨last, hlast, hnext, -⟩ := toNat_nonce_updateNonces (h.settled a) hl (hf a list hl)
    exact ⟨last, hlast, hnext⟩
  · intro hl
    rw [hnone a hl]
    exact (h.settled a).nonce_of_none hl

/-! ## Runs -/

/-- A run for a new head is served with its blocks and its state. -/
def Served (pool : TxPool) (r : ReorgRun) : Prop := ∀ hd ∈ r.heads, pool.FindsHead hd.1 hd.2

theorem Settled.reorganise (h : Settled pool) (hs : Sound pool0 pool)
    (hrec : pool.chain.OutputsRecorded) {r : ReorgRun} (hserved : pool.Served r) :
    let pool1 := (r.heads.map fun hd => pool.reset hd.1 hd.2).getD pool
    let pool2 := (pool1.promoteExecutables r.now (pool1.promoteAddrs r)).1
    Settled (if r.heads.isSome then pool2.demoteUnexecutables r.demoteOrder else pool2) := by
  intro pool1 pool2
  cases hheads : r.heads with
  | none =>
    have hpool1 : pool1 = pool := by simp only [pool1, hheads, map_none, getD_none]
    rw [if_neg (by simp)]
    show Settled (pool1.promoteExecutables r.now (pool1.promoteAddrs r)).1
    rw [hpool1]
    exact h.promoteExecutables hs.reaches r.now _
  | some hd =>
    obtain ⟨statedb, hreset⟩ := reset_of_recorded hrec (hserved hd hheads)
    have hpool1 : pool1 = pool.setHead statedb hd.2 := by
      simp only [pool1, hheads, map_some, getD_some, hreset]
    have haddrs : pool1.promoteAddrs r = visit pool1.queue.keys r.promoteOrder := by
      simp [promoteAddrs, hheads]
    obtain ⟨hstale, hroomy, hstrict⟩ := h.setHead statedb hd.2
    rw [← hpool1] at hstale hroomy hstrict
    have hr : Reaches Legally pool0 [] pool1 := by
      have hsound := (hs.reset hd.1 hd.2).reaches
      rw [hreset, ← hpool1] at hsound
      exact hsound
    obtain ⟨hfits, hahead, hstrict'⟩ :=
      Stale.promoteExecutables hstale hr hstrict hroomy r.now r.promoteOrder
    rw [if_pos (by simp)]
    show Settled ((pool1.promoteExecutables r.now (pool1.promoteAddrs r)).1.demoteUnexecutables _)
    rw [haddrs]
    exact Settled.demoteUnexecutables hfits (hr.promoteExecutables (fun _ => trivial) r.now _)
      hahead hstrict' r.demoteOrder

theorem Settled.runReorg (h : Settled pool) (hs : Sound pool0 pool)
    (hrec : pool.chain.OutputsRecorded) {r : ReorgRun} (hserved : pool.Served r) :
    Settled (pool.runReorg r) ∧ ∀ a, ExecutableAt (pool.runReorg r) a := by
  have hmid := (hs.reorganise r).truncatePending r.pendingOrder
  have hsettled := (h.reorganise hs hrec hserved).truncatePending r.pendingOrder
  exact (hsettled.truncateQueue hmid.reaches r.queueOrder).updateNonces
    (hmid.truncateQueue r.queueOrder).filled

/-- What the calls of a run must meet. -/
def Admits (pool : TxPool) : PoolCall → Prop
  | .addTxs txs _ => ∀ tx ∈ txs, tx.accountNonce.toNat + 1 < 2 ^ 64
  | .runReorg r => pool.Served r
  | _ => True

theorem settled_newTxPool (config : TxPoolConfig) (chain : BlockChain)
    (signer : Transaction → Option Address) (journal : Option (List Transaction)) :
    Settled (newTxPool config chain signer journal) := by
  have hempty := isEmpty_newTxPool config chain signer journal
  have hnonce : ∀ a, (newTxPool config chain signer journal).pendingNonces.get a =
      (newTxPool config chain signer journal).currentState.nonce a := by
    intro a
    unfold newTxPool reset
    dsimp only [map_none, getD_none]
    split <;> rfl
  refine ⟨⟨fun a n hn => ?_, fun a l hl => ?_⟩, fun a l hl => ?_, fun a => ?_⟩
  · simp [listAt, hempty.queue] at hn
  · simp [hempty.queue] at hl
  · simp [hempty.pending] at hl
  · refine ⟨_, fun n _ => ?_, (congrArg UInt64.toNat (hnonce a)).ge,
      (congrArg UInt64.toNat (hnonce a)).le, UInt64.toNat_lt _⟩
    simp only [listAt, hempty.pending, AList.lookup_empty, bind_none, isSome_none,
      Bool.false_eq_true, false_iff]
    omega

theorem Settled.call (h : Settled pool) (hs : Sound pool0 pool) (hrec : pool.chain.OutputsRecorded)
    {c : PoolCall} (hc : pool.Admits c) : Settled (pool.call c) := by
  cases c with
  | addTxs txs isLocal => exact h.addTxs hs isLocal txs hc
  | runReorg r => exact (h.runReorg hs hrec hc).1
  | setGasPrice price => exact h.setGasPrice hs.reaches price
  | evict lifetime now order => exact h.evict hs.reaches lifetime now order
  | rotate order => exact h.frame rfl rfl rfl rfl
  | writeBlock w => exact h.frame rfl rfl rfl rfl

/-- **Pending transactions are executable** after every `runReorg`, if every new head in the run
has been found, every nonce has a successor, and the blocks of the chain have their outputs
recorded, as those have that `writeBlockWithState` has written. -/
theorem pending_executable (config : TxPoolConfig) {chain : BlockChain}
    (hrec : chain.OutputsRecorded) (signer : Transaction → Option Address)
    (journal : Option (List Transaction)) (cs : List PoolCall) (r : ReorgRun)
    (hok : Run.Along call Admits (newTxPool config chain signer journal) (cs ++ [.runReorg r]))
    (addr : Address) :
    ExecutableAt (((newTxPool config chain signer journal).calls cs).runReorg r) addr := by
  obtain ⟨hcs, hserved⟩ := (Run.along_snoc _ cs _).mp hok
  have hsound := sound_newTxPool config chain signer journal
  have hchain : (newTxPool config chain signer journal).chain.OutputsRecorded :=
    (chain_newTxPool config chain signer journal).symm ▸ hrec
  have hstep : ∀ pool c, Settled pool ∧ Reachable (newTxPool config chain signer journal) pool →
      pool.Admits c → Settled (pool.call c) ∧
        Reachable (newTxPool config chain signer journal) (pool.call c) :=
    fun pool c h hc => ⟨h.1.call (h.2.sound hsound) (h.2.outputsRecorded hsound hchain) hc,
      h.2.call c⟩
  obtain ⟨hsettled, hreach⟩ := Run.invariant hstep cs _ ⟨settled_newTxPool _ _ _ _, .refl⟩ hcs
  have hrec := hreach.outputsRecorded hsound hchain
  exact (hsettled.runReorg (hreach.sound hsound) hrec hserved).2 addr

end GethComments.TxPool

namespace GethComments.TxPool

attribute [local instance] HashFns.plain

/-- The commitment `[10]` is minted in a block that becomes the head, and a transfer of it is
added. -/
def offered : List PoolCall :=
  [.writeBlock mintWrite, .runReorg (headRun default mintWrite.block.header),
    .addTxs [split34] false]

attribute [local irreducible] genesisPool

theorem pending_executable_offered :
    Run.Along call Admits genesisPool (offered ++ [.runReorg promoteRun]) ∧
      ExecutableAt ((genesisPool.calls offered).runReorg promoteRun) zeroAddress := by
  have hfinds : ((genesisPool.writeBlock mintWrite).chain.stateAt
      mintWrite.block.header.root).isSome = true := by decide +kernel
  have hblocks : (reinject (genesisPool.writeBlock mintWrite).chain default
      mintWrite.block.header).isSome = true := by decide
  have hok : Run.Along call Admits genesisPool (offered ++ [.runReorg promoteRun]) := by
    refine ⟨trivial, ?_, ?_, ?_, trivial⟩
    · rintro hd ⟨⟩
      exact ⟨hblocks, hfinds⟩
    · intro tx htx
      cases List.mem_singleton.mp htx
      decide
    · rintro hd ⟨⟩
  refine ⟨hok, ?_⟩
  unfold genesisPool at hok ⊢
  exact pending_executable _ (BlockChain.outputsRecorded_genesisChain rfl _ _) _ _ offered
    promoteRun hok zeroAddress

/-! ## Runs in which pending transactions are not executable -/

/-- A purchase that its sender cannot pay, at a higher price than `purchase10`. -/
def costlyPurchase : Transaction := { purchase10 with cmV := [11], price := 10, amount := 1 }

def lostHead : Header := { (default : Header) with
  parentHash := (default : Header).hash, number := 1, root := [9] }

/-- A pending purchase is replaced by one that cannot be paid. -/
def outpriced : List PoolCall :=
  [.addTxs [purchase10] false, .runReorg promoteRun, .addTxs [costlyPurchase] false]

def lastNonce : UInt64 := UInt64.ofNat (2 ^ 64 - 1)

/-- A pool over a state in which all accounts have the last nonce. -/
def lastPool : TxPool :=
  newTxPool ⟨[], 0, 0, 0, 0, 0, Zkp.key23, Zkp.key23⟩
    (BlockChain.genesisChain default { (default : StateDB) with nonce := fun _ => lastNonce } none)
    (fun _ => some zeroAddress) none

/-- A purchase with the last nonce is promoted and then removed for its price. -/
def wrapped : List PoolCall :=
  [.addTxs [{ purchase10 with accountNonce := lastNonce }] false, .runReorg promoteRun,
    .setGasPrice 1]

/-- The purchase of `[cm]` with the nonce. -/
def purchase (cm : UInt8) (nonce : UInt64) : Transaction :=
  { purchase10 with cmV := [cm], accountNonce := nonce }

def syncedWrite : BlockChain.BlockWrite := childWrite default 2 [purchase 10 0, purchase 11 1]

/-- A chain with a block of two purchases, of which only the second is recorded. -/
def syncedChain : BlockChain :=
  { ((BlockChain.genesisChain default default none).writeBlockWithState syncedWrite).1 with
    cmdb := RawDB.writeCM RawDB.emptyCMdb (cmHash [11]) (newDefaultCM [11]) }

def syncedPool : TxPool :=
  newTxPool ⟨[], 0, 0, 0, 0, 0, Zkp.key23, Zkp.key23⟩ syncedChain (fun _ => some zeroAddress) none

def heavierWrite : BlockChain.BlockWrite :=
  let w := childWrite default 0 []
  { w with block := { w.block with header := { w.block.header with difficulty := 2 } } }

/-- A third purchase is pending when the block of the others leaves the chain. -/
def displaced : List PoolCall :=
  [.addTxs [purchase 12 2] false, .runReorg promoteRun, .writeBlock heavierWrite]

attribute [local irreducible] outpriced wrapped displaced

/-- Without one of the conditions a run can leave pending transactions that are not executable:
a new head whose state is missing, the last nonce, a block whose outputs are not recorded. -/
theorem pending_not_executable :
    ¬ ExecutableAt ((genesisPool.calls outpriced).runReorg (headRun default lostHead)) zeroAddress ∧
    ¬ ExecutableAt ((lastPool.calls wrapped).runReorg promoteRun) zeroAddress ∧
    ¬ ExecutableAt ((syncedPool.calls displaced).runReorg
      (headRun syncedWrite.block.header heavierWrite.block.header)) zeroAddress := by
  obtain ⟨hnone, hnext, hnonce⟩ :
      ((genesisPool.calls outpriced).runReorg (headRun default lostHead)).pending.lookup
        zeroAddress = none ∧
      ((genesisPool.calls outpriced).runReorg (headRun default lostHead)).pendingNonces.get
        zeroAddress = 1 ∧
      ((genesisPool.calls outpriced).runReorg (headRun default lostHead)).currentState.nonce
        zeroAddress = 0 := by decide +kernel
  obtain ⟨hnone', hnext', hnonce'⟩ :
      ((lastPool.calls wrapped).runReorg promoteRun).pending.lookup zeroAddress = none ∧
      ((lastPool.calls wrapped).runReorg promoteRun).pendingNonces.get zeroAddress = 0 ∧
      ((lastPool.calls wrapped).runReorg promoteRun).currentState.nonce zeroAddress =
        lastNonce := by
    decide +kernel
  have hlist : (((syncedPool.calls displaced).runReorg (headRun syncedWrite.block.header
      heavierWrite.block.header)).pending.lookup zeroAddress).map
        (fun l => l.flatten.map fun tx => tx.accountNonce.toNat) = some [0, 2] := by decide +kernel
  refine ⟨fun h => ?_, fun h => ?_, fun h => ?_⟩
  · have heq := h.none hnone
    rw [hnext, hnonce] at heq
    cases heq
  · have heq := h.none hnone'
    rw [hnext', hnonce'] at heq
    cases heq
  · obtain ⟨list, hl, hmap⟩ := Option.map_eq_some_iff.mp hlist
    have hrange := hmap.symm.trans (h.range list hl)
    have hlen : list.len = 2 := by simpa using (congrArg List.length hrange).symm
    rw [hlen] at hrange
    obtain ⟨hfirst, hsecond⟩ := List.cons.inj hrange
    have hsecond := (List.cons.inj hsecond).1
    omega

end GethComments.TxPool
