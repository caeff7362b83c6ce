import Mathlib.Algebra.BigOperators.Finprod
import GethComments.Core.ImportCommitments

/-!
# Gas and money in the execution of transactions

`useGas` no longer refuses a message whose gas limit is below the intrinsic gas, and the
gas left for the machine is an unsigned difference. Where the limit covers the intrinsic
gas, execution is the usual accounting.

* `transitionDb_gas`: what one message does to the gas pool.
* `transitionDb_conserves`: gas used, gas pool and the sum of all balances.
* `process_accounts_gas`: the receipts of a block add up.
* `toNat_calcGasLimit`: the limit of the next block is computed without wrap-around.
-/

namespace GethComments

open Function

/-! ## What is assumed of the virtual machine -/

namespace StateDB

/-- Finitely many accounts have a balance. -/
def FiniteAccounts (st : StateDB) : Prop := (support st.balance).Finite

/-- The sum of the balances of all accounts. -/
noncomputable def totalBalance (st : StateDB) : Int := ∑ᶠ a, st.balance a

end StateDB

/-- The machine returns no more gas than it was given. -/
structure ExecEnv.GasBounded (env : ExecEnv) : Prop where
  create_le : ∀ header st sender data gas value,
    (env.evmCreate header st sender data gas value).gas ≤ gas
  call_le : ∀ header st sender recipient data gas value,
    (env.evmCall header st sender recipient data gas value).gas ≤ gas

/-- A state that the machine may leave: balances moved between accounts. -/
structure StateDB.MovedTo (st st' : StateDB) : Prop where
  finite : st'.FiniteAccounts
  total : st'.totalBalance = st.totalBalance

/-- The machine only moves balances between accounts. -/
structure ExecEnv.MovesBalances (env : ExecEnv) : Prop where
  create : ∀ header (st : StateDB) sender data gas value, st.FiniteAccounts →
    st.MovedTo (env.evmCreate header st sender data gas value).state
  call : ∀ header (st : StateDB) sender recipient data gas value, st.FiniteAccounts →
    st.MovedTo (env.evmCall header st sender recipient data gas value).state

namespace StateDB

variable {st : StateDB}

theorem FiniteAccounts.addBalance (h : st.FiniteAccounts) (a : Address) (amount : Int) :
    (st.addBalance a amount).FiniteAccounts := by
  refine (h.insert a).subset fun b hb => ?_
  by_cases hba : b = a
  · exact Set.mem_insert_iff.mpr (Or.inl hba)
  · refine Set.mem_insert_iff.mpr (Or.inr ?_)
    simpa [StateDB.addBalance, update_of_ne hba] using hb

theorem totalBalance_addBalance (h : st.FiniteAccounts) (a : Address) (amount : Int) :
    (st.addBalance a amount).totalBalance = st.totalBalance + amount := by
  have hsplit : (st.addBalance a amount).balance =
      fun b => st.balance b + update (0 : Address → Int) a amount b := by
    funext b
    by_cases hba : b = a
    · subst hba; simp [addBalance]
    · simp [addBalance, update_of_ne hba]
  have hsingle : (support (update (0 : Address → Int) a amount)).Finite :=
    (Set.finite_singleton a).subset fun b hb => by
      by_contra hba
      exact hb (update_of_ne hba _ _)
  have hone : ∑ᶠ b, update (0 : Address → Int) a amount b = amount := by
    rw [finsum_eq_single _ a fun b hb => update_of_ne hb _ _, update_self]
  rw [totalBalance, hsplit, finsum_add_distrib h hsingle, hone, totalBalance]

end StateDB

/-! ## One message -/

/-- The intrinsic gas `TransitionDb` takes for a message. -/
def ExecEnv.intrinsic (env : ExecEnv) (header : Header) (data : Bytes)
    (recipient : Option Address) : UInt64 :=
  intrinsicGas data recipient.isNone (env.homestead header.number) (env.istanbul header.number)

/-- What the machine does with a message, from the state in which its gas is paid. -/
def ExecEnv.evmRun (env : ExecEnv) (header : Header) (st : StateDB) (msg : Message)
    (gas : UInt64) : EvmResult :=
  match msg.recipient with
  | none => env.evmCreate header st msg.sender msg.data gas msg.value
  | some recipient =>
    env.evmCall header (st.setNonce msg.sender (st.nonce msg.sender + 1)) msg.sender recipient
      msg.data gas msg.value

section Message

variable {env : ExecEnv} {header : Header} {st : StateDB} {gp : UInt64} {msg : Message}
  {t : Transition}

/-- A message that is executed: its gas is paid and taken from the pool, the machine runs
on what is left of it, and the rest is settled. -/
theorem transitionDb_ok (h : transitionDb env header st gp msg = .ok t) : msg.gas ≤ gp ∧
      t = settleGas header msg (gp - msg.gas)
        (env.evmRun header (st.addBalance msg.sender (-(msg.gas.toNat * msg.gasPrice : Nat))) msg
          (msg.gas - env.intrinsic header msg.data msg.recipient)) := by
  cases hpre : preCheck st gp msg with
  | error e => simp [transitionDb, hpre, bind, Except.bind] at h
  | ok sg =>
    obtain ⟨st1, gp1⟩ := sg
    have hbuy : msg.gas ≤ gp ∧
        st1 = st.addBalance msg.sender (-(msg.gas.toNat * msg.gasPrice : Nat)) ∧
        gp1 = gp - msg.gas := by
      simp only [preCheck, buyGas] at hpre
      split_ifs at hpre with h1 h2 h3 h4
      cases hpre
      exact ⟨UInt64.not_lt.mp h4, by simp, rfl⟩
    obtain ⟨hle, rfl, rfl⟩ := hbuy
    refine ⟨hle, ?_⟩
    have hrun : transitionDb env header st gp msg =
        let r := env.evmRun header
          (st.addBalance msg.sender (-(msg.gas.toNat * msg.gasPrice : Nat))) msg
          (msg.gas - env.intrinsic header msg.data msg.recipient)
        if r.err = some .insufficientBalance then .error .insufficientBalance
        else .ok (settleGas header msg (gp - msg.gas) r) := by
      rw [transitionDb, hpre]
      unfold ExecEnv.evmRun ExecEnv.intrinsic
      cases msg.recipient <;> rfl
    rw [hrun] at h
    simp only at h
    split_ifs at h
    cases h
    rfl

theorem evmRun_gas_le (henv : env.GasBounded) (gas : UInt64) :
    (env.evmRun header st msg gas).gas ≤ gas := by
  unfold ExecEnv.evmRun
  cases msg.recipient with
  | none => exact henv.create_le _ _ _ _ _ _
  | some recipient => exact henv.call_le _ _ _ _ _ _ _

theorem evmRun_movedTo (henv : env.MovesBalances) (hst : st.FiniteAccounts) (header : Header)
    (msg : Message) (gas : UInt64) : st.MovedTo (env.evmRun header st msg gas).state := by
  unfold ExecEnv.evmRun
  cases msg.recipient with
  | none => exact henv.create _ _ _ _ _ _ hst
  | some recipient =>
    have hmoved := henv.call header (st.setNonce msg.sender (st.nonce msg.sender + 1)) msg.sender
      recipient msg.data gas msg.value hst
    exact ⟨hmoved.finite, hmoved.total⟩

/-- The gas `refundGas` gives back to the sender and the pool. -/
def refunded (msg : Message) (r : EvmResult) : UInt64 :=
  r.gas + (if (msg.gas - r.gas) / 2 > r.refund then r.refund else (msg.gas - r.gas) / 2)

theorem settleGas_usedGas (r : EvmResult) :
    (settleGas header msg gp r).usedGas = msg.gas - refunded msg r := rfl

theorem refunded_le {r : EvmResult} (hr : r.gas ≤ msg.gas) : refunded msg r ≤ msg.gas := by
  have hused : (msg.gas - r.gas).toNat = msg.gas.toNat - r.gas.toNat :=
    UInt64.toNat_sub_of_le _ _ hr
  have hlt := msg.gas.toNat_lt
  rw [UInt64.le_iff_toNat_le] at hr ⊢
  have hrefund : (if (msg.gas - r.gas) / 2 > r.refund then r.refund
      else (msg.gas - r.gas) / 2).toNat ≤ (msg.gas.toNat - r.gas.toNat) / 2 := by
    rw [← hused]
    split
    case isTrue h => exact (UInt64.lt_iff_toNat_lt.mp h).le
    case isFalse => exact le_rfl
  rw [refunded, UInt64.toNat_add]
  omega

theorem transitionDb_gas (henv : env.GasBounded)
    (hgas : env.intrinsic header msg.data msg.recipient ≤ msg.gas)
    (h : transitionDb env header st gp msg = .ok t) :
    t.usedGas ≤ msg.gas ∧ t.gp.toNat + t.usedGas.toNat = gp.toNat := by
  obtain ⟨hgp, rfl⟩ := transitionDb_ok h
  generalize hr : env.evmRun header _ msg _ = r
  have hle : r.gas ≤ msg.gas := by
    rw [← hr]
    refine UInt64.le_trans (evmRun_gas_le henv _) ?_
    rw [UInt64.le_iff_toNat_le, UInt64.toNat_sub_of_le _ _ hgas]
    exact Nat.sub_le _ _
  have href := refunded_le hle
  have hused : (msg.gas - refunded msg r).toNat = msg.gas.toNat - (refunded msg r).toNat :=
    UInt64.toNat_sub_of_le _ _ href
  have hpool : (gp - msg.gas + refunded msg r).toNat =
      (gp.toNat - msg.gas.toNat + (refunded msg r).toNat) % 2 ^ 64 := by
    rw [UInt64.toNat_add, UInt64.toNat_sub_of_le _ _ hgp]
  have hgplt := gp.toNat_lt
  rw [UInt64.le_iff_toNat_le] at href hgp ⊢
  rw [settleGas_usedGas, hused]
  refine ⟨Nat.sub_le _ _, ?_⟩
  change (gp - msg.gas + refunded msg r).toNat + _ = _
  rw [hpool]
  omega

theorem transitionDb_totalBalance (henv : env.MovesBalances) (hst : st.FiniteAccounts)
    (h : transitionDb env header st gp msg = .ok t) :
    ∃ gas : UInt64, t.usedGas = msg.gas - gas ∧ t.state.totalBalance = st.totalBalance +
        ((gas.toNat + t.usedGas.toNat : Int) - msg.gas.toNat) * msg.gasPrice := by
  obtain ⟨-, rfl⟩ := transitionDb_ok h
  have hpaid := hst.addBalance msg.sender (-(msg.gas.toNat * msg.gasPrice : Nat))
  have hmoved := evmRun_movedTo henv hpaid header msg
    (msg.gas - env.intrinsic header msg.data msg.recipient)
  generalize env.evmRun header _ msg _ = r at hmoved
  refine ⟨refunded msg r, rfl, ?_⟩
  have hstate : (settleGas header msg (gp - msg.gas) r).state =
      (r.state.addBalance msg.sender ((refunded msg r).toNat * msg.gasPrice)).addBalance
        header.coinbase ((msg.gas - refunded msg r).toNat * msg.gasPrice) := rfl
  rw [hstate, StateDB.totalBalance_addBalance (hmoved.finite.addBalance _ _),
    StateDB.totalBalance_addBalance hmoved.finite, hmoved.total,
    StateDB.totalBalance_addBalance hst, settleGas_usedGas]
  push_cast
  ring

end Message

/-- **Execution conserves money and gas.** Let the machine return no more gas than it was
given and only move balances between accounts. If the gas limit of a message covers its
intrinsic gas, the gas used is within the limit, the gas pool does not grow and the sum of
all balances, the coinbase's included, stays the same. At a gas price of zero the sum
stays the same under any limit. -/
theorem transitionDb_conserves (env : ExecEnv) (hbound : env.GasBounded)
    (hmoves : env.MovesBalances) (header : Header) (st : StateDB) (hst : st.FiniteAccounts)
    (gp : UInt64) (msg : Message) (t : Transition)
    (h : transitionDb env header st gp msg = .ok t) :
    (env.intrinsic header msg.data msg.recipient ≤ msg.gas →
      t.usedGas ≤ msg.gas ∧ t.gp ≤ gp ∧ t.state.totalBalance = st.totalBalance) ∧
    (msg.gasPrice = 0 → t.state.totalBalance = st.totalBalance) := by
  obtain ⟨gas, hused, htotal⟩ := transitionDb_totalBalance hmoves hst h
  constructor
  · intro hgas
    obtain ⟨hle, hpool⟩ := transitionDb_gas hbound hgas h
    refine ⟨hle, UInt64.le_iff_toNat_le.mpr (by omega), ?_⟩
    have hsum : gas.toNat + t.usedGas.toNat = msg.gas.toNat := by
      have hmod := congrArg UInt64.toNat hused
      have hlt := gas.toNat_lt
      have hmlt := msg.gas.toNat_lt
      rw [UInt64.toNat_sub] at hmod
      rw [UInt64.le_iff_toNat_le] at hle
      omega
    rw [htotal, ← Nat.cast_add, hsum]
    simp
  · intro hprice
    rw [htotal, hprice]
    simp

def idleEvm : ImportEnv :=
  { ImportEnv.permissive with
    evmCreate := fun _ st _ _ gas _ => ⟨st, gas, 0, [], none⟩
    evmCall := fun _ st _ _ _ gas _ => ⟨st, gas, 0, [], none⟩ }

theorem idleEvm_gasBounded : idleEvm.GasBounded :=
  ⟨fun _ _ _ _ _ _ => UInt64.le_refl _, fun _ _ _ _ _ _ _ => UInt64.le_refl _⟩

theorem idleEvm_movesBalances : idleEvm.MovesBalances :=
  ⟨fun _ _ _ _ _ _ h => ⟨h, rfl⟩, fun _ _ _ _ _ _ _ h => ⟨h, rfl⟩⟩

theorem finiteAccounts_default : (default : StateDB).FiniteAccounts := by
  simp [StateDB.FiniteAccounts, default, support]

theorem totalBalance_default : (default : StateDB).totalBalance = 0 := by
  simp [StateDB.totalBalance, default]

/-- A call with the given gas limit and price from an account without balance. -/
def emptyCall (gas : UInt64) (gasPrice : Nat) : Message :=
  { sender := [1], recipient := some [2], nonce := 0, gasPrice, gas, value := 0, data := []
    checkNonce := true }

/-- The machine that only transfers the value of a call. -/
def transferEvm : ImportEnv :=
  { idleEvm with
    evmCall := fun _ st sender recipient _ gas value =>
      ⟨(st.addBalance sender (-value)).addBalance recipient value, gas, 0, [], none⟩ }

theorem transferEvm_gasBounded : transferEvm.GasBounded :=
  ⟨fun _ _ _ _ _ _ => UInt64.le_refl _, fun _ _ _ _ _ _ _ => UInt64.le_refl _⟩

theorem transferEvm_movesBalances : transferEvm.MovesBalances where
  create _ _ _ _ _ _ h := ⟨h, rfl⟩
  call _ st sender recipient _ _ value h := by
    refine ⟨(h.addBalance _ _).addBalance _ _, ?_⟩
    have hpaid := StateDB.totalBalance_addBalance h sender (-value)
    have hgot := StateDB.totalBalance_addBalance (h.addBalance sender (-value)) recipient value
    exact hgot.trans (by rw [hpaid]; ring)

/-- Two accounts with 1000000 and 7. -/
def twoAccounts : StateDB := ((default : StateDB).addBalance [1] 1000000).addBalance [2] 7

/-- A call of 500 with 30000 gas at a price of 3, without a check of the nonce: the miner gets
63000, and the sum stays the same. -/
theorem transitionDb_conserves_transferEvm :
    ∃ t, transitionDb transferEvm.toExecEnv default twoAccounts 40000
        ⟨[1], some [2], 8, 3, 30000, 500, [], false⟩ = .ok t ∧
      t.state.balance [2] = 507 ∧ t.state.balance (default : Header).coinbase = 63000 ∧
      t.usedGas ≤ 30000 ∧ t.gp ≤ 40000 ∧ t.state.totalBalance = 1000007 := by
  have hfinite := finiteAccounts_default.addBalance [1] 1000000
  have hsum : twoAccounts.totalBalance = 1000007 := by
    rw [twoAccounts, StateDB.totalBalance_addBalance hfinite,
      StateDB.totalBalance_addBalance finiteAccounts_default, totalBalance_default]
    norm_num
  refine ⟨_, rfl, by decide, by decide, ?_⟩
  rw [← hsum]
  exact (transitionDb_conserves transferEvm.toExecEnv transferEvm_gasBounded
    transferEvm_movesBalances default twoAccounts (hfinite.addBalance [2] 7) 40000
    ⟨[1], some [2], 8, 3, 30000, 500, [], false⟩ _ rfl).1 (by decide)

/-- A message without gas: it uses 21000 gas, fills the pool and mints `2^64`. -/
theorem transitionDb_mints :
    idleEvm.GasBounded ∧ idleEvm.MovesBalances ∧ (default : StateDB).FiniteAccounts ∧
      (default : StateDB).totalBalance = 0 ∧
      ∃ t, transitionDb idleEvm.toExecEnv default default 0 (emptyCall 0 1) = .ok t ∧
        t.usedGas = 21000 ∧ t.gp = 18446744073709530616 ∧ t.state.totalBalance = 2 ^ 64 := by
  refine ⟨idleEvm_gasBounded, idleEvm_movesBalances, finiteAccounts_default, totalBalance_default,
    _, rfl, by decide, by decide, ?_⟩
  obtain ⟨gas, hused, htotal⟩ := transitionDb_totalBalance idleEvm_movesBalances
    finiteAccounts_default (show transitionDb idleEvm.toExecEnv default default 0 (emptyCall 0 1) =
      .ok _ from rfl)
  have hgas : gas = 0 - 21000 := by
    have h : (21000 : UInt64) = 0 - gas := hused
    rw [h]
    simp
  rw [htotal, totalBalance_default, hgas]
  decide

/-! ## One block -/

/-- The books of a block whose gas limit is `limit`: pool and counter add up to the limit,
the counter is the sum over the receipts, and their running totals increase up to it. -/
structure Processed.Accounted (limit : UInt64) (p : Processed) : Prop where
  pool : p.gp.toNat + p.usedGas.toNat = limit.toNat
  sum : p.usedGas.toNat = (p.receipts.map fun r => r.gasUsed.toNat).sum
  le_usedGas : ∀ r ∈ p.receipts, r.cumulativeGasUsed ≤ p.usedGas
  sorted : p.receipts.Pairwise fun r r' => r.cumulativeGasUsed ≤ r'.cumulativeGasUsed

theorem Processed.Accounted.record {limit used : UInt64} {p p' : Processed} {r : Receipt}
    (hp : p.Accounted limit) (hpool : p'.gp.toNat + used.toNat = p.gp.toNat)
    (hused : p'.usedGas = p.usedGas + used) (hreceipts : p'.receipts = p.receipts ++ [r])
    (hgas : r.gasUsed = used) (hcumulative : r.cumulativeGasUsed = p'.usedGas) :
    p'.Accounted limit := by
  have hlimit := limit.toNat_lt
  have hold := hp.pool
  have hadd : p'.usedGas.toNat = p.usedGas.toNat + used.toNat := by
    rw [hused, UInt64.toNat_add]
    omega
  have hle : p.usedGas ≤ p'.usedGas := by
    rw [UInt64.le_iff_toNat_le, hadd]
    omega
  refine ⟨by omega, ?_, ?_, ?_⟩
  · simp [hreceipts, hadd, hp.sum, hgas]
  · intro r' hr'
    rw [hreceipts] at hr'
    rcases List.mem_append.mp hr' with hr' | hr'
    · exact UInt64.le_trans (hp.le_usedGas r' hr') hle
    · rw [List.mem_singleton.mp hr', hcumulative]
      exact UInt64.le_refl _
  · rw [hreceipts]
    refine List.pairwise_append.mpr ⟨hp.sorted, List.pairwise_singleton _ _, ?_⟩
    intro r1 hr1 r2 hr2
    rw [List.mem_singleton.mp hr2, hcumulative]
    exact UInt64.le_trans (hp.le_usedGas r1 hr1) hle

section Block

variable [HashFns] {env : ExecEnv}

/-- Every transaction of the block has a gas limit that covers its intrinsic gas. -/
def ExecEnv.CoversIntrinsic (env : ExecEnv) (block : Block) : Prop :=
  ∀ tx ∈ block.transactions, env.intrinsic block.header tx.payload tx.recipient ≤ tx.gasLimit

theorem applyTransaction_accounted (henv : env.GasBounded) {header : Header} {limit : UInt64}
    {p p' : Processed} {tx : Transaction}
    (hgas : env.intrinsic header tx.payload tx.recipient ≤ tx.gasLimit)
    (hp : p.Accounted limit) (h : applyTransaction env header p tx = .ok p') :
    p'.Accounted limit := by
  cases hmsg : asMessage env header.number tx with
  | none => simp [applyTransaction, hmsg] at h
  | some msg =>
    obtain ⟨sender, -, rfl⟩ := Option.map_eq_some_iff.mp hmsg
    simp only [applyTransaction, hmsg] at h
    cases ht : transitionDb env header p.state p.gp _ with
    | error e =>
      rw [ht] at h
      cases h
    | ok t =>
      rw [ht] at h
      cases h
      exact hp.record (transitionDb_gas henv hgas ht).2 rfl rfl rfl rfl

theorem process_accounted (henv : env.GasBounded) {reader : ChainReader} {block : Block}
    {st : StateDB} {p : Processed} (hgas : env.CoversIntrinsic block)
    (h : process env reader block st = .ok p) : p.Accounted block.header.gasLimit := by
  simp only [process] at h
  cases hfold : block.transactions.foldlM (applyTransaction env block.header)
      { state := env.daoFork block.header.number st, gp := block.header.gasLimit, usedGas := 0,
        receipts := [] } with
  | error e =>
    rw [hfold] at h
    cases h
  | ok p1 =>
    rw [hfold] at h
    cases h
    have hacc : p1.Accounted block.header.gasLimit :=
      Run.foldlM_ok_invariant (P := Processed.Accounted block.header.gasLimit) block.transactions
        (fun p p' tx htx hp hstep => applyTransaction_accounted henv (hgas tx htx) hp hstep)
        ⟨by simp, by simp, by simp, by simp⟩ hfold
    exact ⟨hacc.pool, hacc.sum, hacc.le_usedGas, hacc.sorted⟩

/-- **Gas of a block.** Let the machine return no more gas than it was given. If every
transaction's gas limit covers its intrinsic gas, then in a block that `Process` executes
the running totals of the receipts do not decrease, the returned total is the sum of the
gas used by the transactions, without wrap-around, and it is within the block's gas limit.
`ValidateState` does not compare that total with the header: its verdict is the same for
every value of `GasUsed`. -/
theorem process_accounts_gas (env : ImportEnv) (henv : env.GasBounded) (reader : ChainReader)
    (block : Block) (st : StateDB) (p : Processed)
    (h : process env.toExecEnv reader block st = .ok p) :
    (env.CoversIntrinsic block →
      (p.receipts.Pairwise fun r r' => r.cumulativeGasUsed ≤ r'.cumulativeGasUsed) ∧
        p.usedGas.toNat = (p.receipts.map fun r => r.gasUsed.toNat).sum ∧
        p.usedGas ≤ block.header.gasLimit) ∧
    ∀ gasUsed : UInt64, env.validateState { block with header := { block.header with gasUsed } } p =
        env.validateState block p := by
  refine ⟨fun hgas => ?_, fun gasUsed => rfl⟩
  have hacc := process_accounted henv hgas h
  have hpool := hacc.pool
  exact ⟨hacc.sorted, hacc.sum, UInt64.le_iff_toNat_le.mpr (by omega)⟩

end Block

section Concrete

attribute [local instance] HashFns.plain

/-- A call without value or data from the account of `permissive`. -/
def bareCall (nonce gasLimit : UInt64) : Transaction :=
  { (default : Transaction) with accountNonce := nonce, gasLimit, recipient := some [2] }

def noChain : ChainReader := ⟨default, fun _ _ => none, fun _ => none⟩

def gasBlock (txs : List Transaction) (gasLimit gasUsed : UInt64) : Block :=
  { (default : Block) with
    header := { (default : Header) with gasLimit, gasUsed }, transactions := txs }

theorem process_accounts_gas_idleEvm : ∃ p, process idleEvm.toExecEnv noChain
        (gasBlock [bareCall 0 21000, bareCall 1 30000] 60000 0) default = .ok p ∧
      p.usedGas.toNat = (p.receipts.map fun r => r.gasUsed.toNat).sum ∧ p.usedGas ≤ 60000 := by
  refine ⟨_, rfl, ?_⟩
  exact ((process_accounts_gas idleEvm idleEvm_gasBounded noChain
    (gasBlock [bareCall 0 21000, bareCall 1 30000] 60000 0) default _ rfl).1 (by
      unfold ExecEnv.CoversIntrinsic
      decide)).2

/-- The machine that uses up all its gas but one unit. -/
def greedyEvm : ImportEnv :=
  { ImportEnv.permissive with
    evmCreate := fun _ st _ _ gas _ => ⟨st, if gas < 1 then gas else 1, 0, [], none⟩
    evmCall := fun _ st _ _ _ gas _ => ⟨st, if gas < 1 then gas else 1, 0, [], none⟩ }

/-- Two transactions without gas: the running total decreases and is neither the sum of the
gas used nor within the block's limit, and the header may state any gas used. -/
theorem process_wraps_gas : greedyEvm.GasBounded ∧ ∃ p, process greedyEvm.toExecEnv noChain
          (gasBlock [bareCall 0 0, bareCall 1 0] 0 5) default = .ok p ∧
        p.receipts.map (·.cumulativeGasUsed) = [18446744073709551615, 18446744073709551614] ∧
        p.receipts.map (·.gasUsed) = [18446744073709551615, 18446744073709551615] ∧
        p.usedGas = 18446744073709551614 ∧
        greedyEvm.validateState (gasBlock [bareCall 0 0, bareCall 1 0] 0 5) p = none := by
  have hle : ∀ gas : UInt64, (if gas < 1 then gas else 1) ≤ gas := by
    intro gas
    split
    case isTrue => exact UInt64.le_refl _
    case isFalse h => exact UInt64.not_lt.mp h
  refine ⟨⟨fun _ _ _ _ gas _ => hle gas, fun _ _ _ _ _ gas _ => hle gas⟩, _, rfl, ?_⟩
  decide

end Concrete

/-! ## The gas limit of the next block -/

def gasLimitBoundDivisor : UInt64 := 1024

def minGasLimit : UInt64 := 5000

/-- `CalcGasLimit`: the parent's limit, moved towards the gas its block used and kept between
the floor and the ceiling. -/
def calcGasLimit (parent : Block) (gasFloor gasCeil : UInt64) : UInt64 :=
  let contrib := (parent.header.gasUsed + parent.header.gasUsed / 2) / gasLimitBoundDivisor
  let decay := parent.header.gasLimit / gasLimitBoundDivisor - 1
  let limit := parent.header.gasLimit - decay + contrib
  let limit := if limit < minGasLimit then minGasLimit else limit
  if limit < gasFloor then
    if parent.header.gasLimit + decay > gasFloor then gasFloor else parent.header.gasLimit + decay
  else if limit > gasCeil then
    if parent.header.gasLimit - decay < gasCeil then gasCeil else parent.header.gasLimit - decay
  else limit

/-- The rule of `calcGasLimit` over the integers, where nothing wraps around. -/
def idealGasLimit (gasLimit gasUsed gasFloor gasCeil : Int) : Int :=
  let contrib := (gasUsed + gasUsed / 2) / 1024
  let decay := gasLimit / 1024 - 1
  let limit := max (gasLimit - decay + contrib) 5000
  if limit < gasFloor then min (gasLimit + decay) gasFloor
  else if limit > gasCeil then max (gasLimit - decay) gasCeil
  else limit

theorem toNat_calcGasLimit {parent : Block} (hmin : 5000 ≤ parent.header.gasLimit.toNat)
    (hmax : parent.header.gasLimit.toNat < 2 ^ 63)
    (hused : parent.header.gasUsed ≤ parent.header.gasLimit) (gasFloor gasCeil : UInt64) :
    ((calcGasLimit parent gasFloor gasCeil).toNat : Int) =
      idealGasLimit parent.header.gasLimit.toNat parent.header.gasUsed.toNat gasFloor.toNat
        gasCeil.toNat := by
  simp only [calcGasLimit, idealGasLimit]
  generalize parent.header.gasLimit = L at *
  generalize parent.header.gasUsed = U at *
  have hU := UInt64.le_iff_toNat_le.mp hused
  -- no operation on words leaves their range, as the gas used is below the limit
  have hcontrib : ((U + U / 2) / gasLimitBoundDivisor).toNat = (U.toNat + U.toNat / 2) / 1024 := by
    simp [gasLimitBoundDivisor, UInt64.toNat_div, UInt64.toNat_add]
    omega
  have hone : (1 : UInt64) ≤ L / gasLimitBoundDivisor := by
    simp [UInt64.le_iff_toNat_le, UInt64.toNat_div, gasLimitBoundDivisor]
    omega
  have hdecay : (L / gasLimitBoundDivisor - 1).toNat = L.toNat / 1024 - 1 := by
    rw [UInt64.toNat_sub_of_le _ _ hone, UInt64.toNat_div]
    rfl
  generalize (U + U / 2) / gasLimitBoundDivisor = contrib at hcontrib ⊢
  generalize L / gasLimitBoundDivisor - 1 = decay at hdecay ⊢
  have hdown : (L - decay).toNat = L.toNat - decay.toNat :=
    UInt64.toNat_sub_of_le _ _ (UInt64.le_iff_toNat_le.mpr (by omega))
  have hup : (L + decay).toNat = L.toNat + decay.toNat := by
    rw [UInt64.toNat_add]
    omega
  have hmid : (L - decay + contrib).toNat = L.toNat - decay.toNat + contrib.toNat := by
    rw [UInt64.toNat_add, hdown]
    omega
  have hminGas : minGasLimit.toNat = 5000 := rfl
  simp only [gt_iff_lt, UInt64.lt_iff_toNat_lt, apply_ite UInt64.toNat, hmid, hup, hdown, hminGas]
  split_ifs <;> omega

theorem idealGasLimit_bounds {gasLimit gasUsed gasFloor gasCeil : Int} (hmin : 5000 ≤ gasLimit)
    (hnn : 0 ≤ gasUsed) (hused : gasUsed ≤ gasLimit) (hfloor : 5000 ≤ gasFloor)
    (hceil : gasFloor ≤ gasCeil) :
    5000 ≤ idealGasLimit gasLimit gasUsed gasFloor gasCeil ∧
      (|idealGasLimit gasLimit gasUsed gasFloor gasCeil - gasLimit| < gasLimit / 1024 ↔
        ¬ (gasLimit < 5120 ∧ 4779 ≤ gasUsed ∧ gasFloor ≤ gasLimit + 4 ∧
          gasLimit + 4 ≤ gasCeil)) ∧
      (gasLimit < 5120 ∧ 4779 ≤ gasUsed ∧ gasFloor ≤ gasLimit + 4 ∧ gasLimit + 4 ≤ gasCeil →
        idealGasLimit gasLimit gasUsed gasFloor gasCeil = gasLimit + 4) := by
  simp only [idealGasLimit, abs_lt]
  refine ⟨?_, ?_, ?_⟩
  · split_ifs <;> omega
  · split_ifs <;> omega
  · split_ifs <;> omega

/-- The next limit stays within a 1024th of its parent's, computed without wrap-around, unless
the parent's limit is below 5120 and its block nearly full: then it moves up by 4, a whole
1024th. -/
theorem calcGasLimit_moves_little (parent : Block) (gasFloor gasCeil : UInt64)
    (hmin : 5000 ≤ parent.header.gasLimit.toNat) (hmax : parent.header.gasLimit.toNat < 2 ^ 63)
    (hused : parent.header.gasUsed ≤ parent.header.gasLimit) (hfloor : 5000 ≤ gasFloor.toNat)
    (hceil : gasFloor ≤ gasCeil) :
    let L := parent.header.gasLimit.toNat
    let g := (calcGasLimit parent gasFloor gasCeil).toNat
    (g : Int) = idealGasLimit L parent.header.gasUsed.toNat gasFloor.toNat gasCeil.toNat ∧
      5000 ≤ g ∧
      (|(g : Int) - L| < (L / 1024 : Nat) ↔ ¬ (L < 5120 ∧ 4779 ≤ parent.header.gasUsed.toNat ∧
        gasFloor.toNat ≤ L + 4 ∧ L + 4 ≤ gasCeil.toNat)) ∧
      (L < 5120 ∧ 4779 ≤ parent.header.gasUsed.toNat ∧ gasFloor.toNat ≤ L + 4 ∧
        L + 4 ≤ gasCeil.toNat → g = L + 4) := by
  intro L g
  obtain ⟨h1, h2, h3⟩ := idealGasLimit_bounds (Int.ofNat_le.mpr hmin) (Int.natCast_nonneg _)
    (Int.ofNat_le.mpr (UInt64.le_iff_toNat_le.mp hused)) (Int.ofNat_le.mpr hfloor)
    (Int.ofNat_le.mpr (UInt64.le_iff_toNat_le.mp hceil))
  rw [← toNat_calcGasLimit hmin hmax hused gasFloor gasCeil] at h1 h2 h3
  exact ⟨toNat_calcGasLimit hmin hmax hused gasFloor gasCeil, by omega, h2.trans (by omega),
    fun h => by have := h3 (by omega); omega⟩

/-- A block that has used `gasUsed` of `gasLimit`. -/
def fullBlock (gasLimit gasUsed : UInt64) : Block :=
  ⟨{ (default : Header) with gasLimit, gasUsed }, [], []⟩

theorem calcGasLimit_moves_little_six :
    |((calcGasLimit (fullBlock 6143 6143) 5000 8000).toNat : Int) - 6143| < 5 :=
  (calcGasLimit_moves_little (fullBlock 6143 6143) 5000 8000 (by decide) (by decide) (by decide)
    (by decide) (by decide)).2.2.1.mpr (by decide)

theorem calcGasLimit_moves_far :
    (calcGasLimit (fullBlock 5000 5000) 5000 8000).toNat = 5004 ∧ 5000 / 1024 = 4 := by
  decide

end GethComments
