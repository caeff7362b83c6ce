import GethComments.Core.PoolCommitments
import Mathlib.Data.Nat.ModEq

/-!
# What an issuer signature is good for

The pool verifies the issuer's signature of a purchase on the message that the purchase
carries, and it remembers commitments; nothing relates the message to the commitment. The
notes on the issuer's signature have it cover the identifier and the commitment, and the
check compare them; `CreateSign` of the exchange signs the identifier and the amount.

* `isSome_run`: a record is never lost;
* `purchase_signature_used_once`: where the message is compared with the commitment, a signature
  is good for one purchase;
* `element_recorded_once`: which spellings of a group element share their record.
-/

namespace GethComments.TxPool

section

variable [HashFns] {pool pool0 : TxPool} {tx u : Transaction} {k : Hash}

/-! ## Records stay -/

theorem isSome_run (h : Reaches Legally pool0 [] pool) (hk : (pool.ledger.db k).isSome)
    (ops : List PoolOp) : ((pool.run ops).ledger.db k).isSome :=
  (reaches_run (h.rebase Legally) ops).evolves.isSome hk

theorem isSome_insertTx (hn : pool.all.get tx.hash = none) (hk : tx.Locks k) (isLocal : Bool)
    (h : (pool.insertTx tx isLocal).2.isOk = true) :
    ((pool.insertTx tx isLocal).1.ledger.db k).isSome := by
  have hlock : ∀ p : TxPool, ((p.lockTx tx).ledger.db k).isSome := fun p => by
    obtain ⟨cm, hcm⟩ := processCM_of_locks p.chain.cmdb hk
    exact Option.isSome_iff_exists.mpr ⟨_, hcm⟩
  rcases insertTx_cases pool tx isLocal with ⟨heq, -⟩ |
    ⟨journal, locals, old, list', ⟨list, -, -, -, heq⟩ | ⟨-, -, heq⟩⟩
  · rw [heq] at h
    cases h
  · rw [heq]
    exact hlock _
  · have hnone : (((pool.setQueue (pool.sender tx) list').dropOld old).all.get tx.hash).isNone := by
      rw [get_dropOld_eq_none (show (pool.setQueue _ list').all.get tx.hash = none from hn)]
      rfl
    rw [heq, lockNew, if_pos hnone]
    exact hlock _

theorem isSome_add (h : Reaches Legally pool0 [] pool) (hk : tx.Locks k) (isLocal : Bool)
    (hadd : (pool.add tx isLocal).2.isOk = true) :
    ((pool.add tx isLocal).1.ledger.db k).isSome := by
  revert hadd
  unfold TxPool.add
  cases hv : pool.validate tx with
  | some err => exact fun h => by cases h
  | none =>
    obtain ⟨hlegal, -⟩ := validate_eq_none hv
    have hroom := (h.rebase Ledger.IsUnlock).makeRoom (fun _ => trivial) tx isLocal
    have hlegal' := hroom.evolves.legal_lock h.inv.recorded hlegal
    dsimp only
    generalize pool.makeRoom tx isLocal = r at hlegal' ⊢
    obtain ⟨pool', res⟩ := r
    cases res with
    | some err => exact fun h => by cases h
    | none => exact isSome_insertTx hlegal'.2 hk isLocal

theorem refused_after (h : pool.IsEmpty) (before after : List PoolOp) {isLocal : Bool}
    (hk : tx.Locks k) (hu : u.Creates k) (hadd : ((pool.run before).add tx isLocal).2.isOk = true)
    (isLocal' : Bool) :
    ((pool.run (before ++ .add tx isLocal :: after)).add u isLocal').2.isOk = false := by
  have hreach := reaches_run h.reaches before
  have hsome := isSome_add hreach hk isLocal hadd
  have hrun : pool.run (before ++ .add tx isLocal :: after) =
      ((pool.run before).add tx isLocal).1.run after := by
    rw [run, List.foldl_append]
    rfl
  have hlater := isSome_run (reaches_step hreach (.add tx isLocal)) hsome after
  rw [hrun, Bool.eq_false_iff]
  intro hok
  have hnone := Ledger.db_eq_none_of_creates (L := TxPool.ledger _) (validateCM_of_isOk_add hok) hu
  change ((((pool.run before).add tx isLocal).1.run after).ledger.db _).isSome at hlater
  rw [hnone] at hlater
  cases hlater

/-! ## One signature, one commitment -/

/-- What the notes have the check compare: the signed message is the identifier, which `CreateSign`
writes as the text `1`, followed by the commitment. -/
def SignsCommitment (tx : Transaction) : Prop := tx.sigM = 49 :: tx.cmV

/-- **A signature is good for one purchase**, if each purchase passes the check that the notes
describe: two with the same signature have the same commitment, and once the first has been
admitted, `add` returns an error on the second for the rest of the run. `validateSign` makes no
such check: its verdict is the same for every commitment. -/
theorem purchase_signature_used_once (h : pool.IsEmpty) (before after : List PoolOp)
    (tx u : Transaction) (isLocal : Bool) (h1 : tx.id = 1) (hu1 : u.id = 1)
    (htx : SignsCommitment tx) (hu : SignsCommitment u)
    (hadd : ((pool.run before).add tx isLocal).2.isOk = true) (hsig : u.sig = tx.sig) :
    u.cmV = tx.cmV ∧
      (∀ isLocal',
        ((pool.run (before ++ .add tx isLocal :: after)).add u isLocal').2.isOk = false) ∧
      ∀ exchange cm, validateSign exchange { u with cmV := cm } = validateSign exchange tx := by
  have hcm : u.cmV = tx.cmV := by
    have hM : u.sigM = tx.sigM := congrArg Zkp.Signature.m hsig
    exact (List.cons.inj (hu.symm.trans (hM.trans htx))).2
  have hlocks : tx.Locks (cmHash tx.cmV) := (tx.locks_iff _).mpr (Or.inl ⟨h1, rfl⟩)
  refine ⟨hcm, refused_after h before after hlocks (Or.inl ⟨hu1, by rw [hcm]⟩) hadd,
    fun exchange cm => ?_⟩
  rw [validateSign, validateSign, ← hsig]
  rfl

/-! ## Spellings of a commitment -/

/-- The spelling of a group element that the provers write. -/
def Reduced (P : Nat) (cm : Bytes) : Prop := bytes (setBytes cm % P) = cm

/-- **One record for one element.** Beside the reduced spelling of a group element exactly the
reduced ones have its key, as far as the hash tells the two byte strings apart. For them the spent
check of a transfer takes one for the other, and once one of them was bought or spent, no
transaction that creates the other is admitted. -/
theorem element_recorded_once {P : Nat} {a b : Bytes} (ha : Reduced P a)
    (h : setBytes a ≡ setBytes b [MOD P]) (hinj : cmHash a = cmHash b → a = b) :
    (cmHash a = cmHash b ↔ Reduced P b) ∧ (Reduced P b → (∀ (db : CMdb) (tx : Transaction),
        validateCM db { tx with cmO := a } = validateCM db { tx with cmO := b }) ∧
      ∀ (pool : TxPool) (before after : List PoolOp) (tx u : Transaction) (isLocal isLocal' : Bool),
        pool.IsEmpty → tx.Locks (cmHash a) → u.Creates (cmHash b) →
        ((pool.run before).add tx isLocal).2.isOk = true →
        ((pool.run (before ++ .add tx isLocal :: after)).add u isLocal').2.isOk = false) := by
  have hab : Reduced P b → a = b := fun hb => by
    rw [← ha, ← hb]
    exact congrArg bytes h
  refine ⟨⟨fun heq => hinj heq ▸ ha, fun hb => congrArg cmHash (hab hb)⟩, fun hb => ?_⟩
  obtain rfl := hab hb
  refine ⟨fun _ _ => rfl, fun pool before after tx u isLocal isLocal' hempty hk hu hadd => ?_⟩
  exact refused_after hempty before after hk hu hadd isLocal'

end

section

attribute [local instance] HashFns.plain

/-- A purchase of `cm` with the issuer's signature on the message. -/
def purchaseOf (nonce : UInt64) (cm sigM sigR sigS : Bytes) : Transaction :=
  { (default : Transaction) with
    accountNonce := nonce, id := 1, cmV := cm
    sigM, sigMHash := HashFns.sum256 sigM, sigR, sigS }

/-- Another purchase by the receipt for `[10]`, and one of `[8]` that has no receipt of its own. -/
theorem purchase_signature_used_once_genesis :
    ((genesisPool.run []).add (purchaseOf 0 [10] [49, 10] [2] [10]) false).2.isOk = true ∧
      (∀ isLocal', ((genesisPool.run ([] ++ .add (purchaseOf 0 [10] [49, 10] [2] [10]) false ::
        [])).add (purchaseOf 1 [10] [49, 10] [2] [10]) isLocal').2.isOk = false) ∧
      validateSign Zkp.key23 (purchaseOf 1 [8] [49, 10] [2] [10]) = none ∧
      ¬SignsCommitment (purchaseOf 1 [8] [49, 10] [2] [10]) := by
  have hadd : ((genesisPool.run []).add (purchaseOf 0 [10] [49, 10] [2] [10]) false).2.isOk =
      true := by decide +kernel
  have hfirst : validateSign Zkp.key23 (purchaseOf 0 [10] [49, 10] [2] [10]) = none := by
    decide +kernel
  obtain ⟨-, hrefused, hany⟩ := purchase_signature_used_once isEmpty_genesisPool [] []
    (purchaseOf 0 [10] [49, 10] [2] [10]) (purchaseOf 1 [10] [49, 10] [2] [10]) false rfl rfl rfl
    rfl hadd rfl
  exact ⟨hadd, hrefused, (hany Zkp.key23 [8]).trans hfirst, by unfold SignsCommitment; decide⟩

/-- The exchange's receipt for a purchase of 7, the signed message `"17"`, admits purchases of
two commitments. -/
theorem purchase_signature_replayed : genesisPool.IsEmpty ∧
      (purchaseOf 0 [10] [49, 55] [2] [2]).sig = (purchaseOf 1 [8] [49, 55] [2] [2]).sig ∧
      (purchaseOf 0 [10] [49, 55] [2] [2]).cmV ≠ (purchaseOf 1 [8] [49, 55] [2] [2]).cmV ∧
      (genesisPool.add (purchaseOf 0 [10] [49, 55] [2] [2]) false).2.isOk = true ∧
      ((genesisPool.run [.add (purchaseOf 0 [10] [49, 55] [2] [2]) false]).add
        (purchaseOf 1 [8] [49, 55] [2] [2]) false).2.isOk = true := by
  refine ⟨isEmpty_genesisPool, rfl, by decide, ?_⟩
  decide +kernel

/-- The spelling that a prover writes has the key of `[9]`; the one with a leading zero has not. -/
theorem element_recorded_once_nine : cmHash [9] = cmHash (bytes (2 * 16 % 23)) ∧
    cmHash [9] ≠ cmHash [0, 9] ∧
    (genesisPool.add (purchaseOf 0 [9] [49, 55] [2] [2]) false).2.isOk = true ∧
    ((genesisPool.run ([] ++ [.add (purchaseOf 0 [9] [49, 55] [2] [2]) false])).add
      (purchaseOf 1 (bytes (2 * 16 % 23)) [49, 55] [2] [2]) false).2.isOk = false := by
  have hnine : Reduced 23 [9] := by unfold Reduced; decide
  have hreduced : Reduced 23 (bytes (2 * 16 % 23)) := by unfold Reduced; decide
  have hone := element_recorded_once (P := 23) (a := [9]) (b := bytes (2 * 16 % 23)) hnine
    (by decide) (fun _ => by decide)
  have hzero := element_recorded_once (P := 23) (a := [9]) (b := [0, 9]) hnine (by decide)
    (fun heq => absurd heq (by decide))
  have hadd : (genesisPool.add (purchaseOf 0 [9] [49, 55] [2] [2]) false).2.isOk = true := by
    decide +kernel
  refine ⟨hone.1.mpr hreduced, fun heq => ?_, hadd, (hone.2 hreduced).2 genesisPool [] [] _ _ false
    false isEmpty_genesisPool ⟨_, rfl, rfl⟩ (Or.inl ⟨rfl, rfl⟩) hadd⟩
  have hnot : ¬Reduced 23 [0, 9] := by unfold Reduced; decide
  exact hnot (hzero.1.mp heq)

/-- Purchases of the element 10 modulo 23, spelled with a leading zero and not reduced, are
admitted after that of `[10]`. -/
theorem purchase_of_other_spelling :
    setBytes [0, 10] ≡ setBytes [10] [MOD genesisPool.config.regulator.p] ∧
      setBytes [33] ≡ setBytes [10] [MOD genesisPool.config.regulator.p] ∧
      cmHash [0, 10] ≠ cmHash [10] ∧ cmHash [33] ≠ cmHash [10] ∧
      (genesisPool.add (purchaseOf 0 [10] [49, 55] [2] [2]) false).2.isOk = true ∧
      ((genesisPool.run [.add (purchaseOf 0 [10] [49, 55] [2] [2]) false]).add
        (purchaseOf 1 [0, 10] [49, 55] [2] [2]) false).2.isOk = true ∧
      ((genesisPool.run [.add (purchaseOf 0 [10] [49, 55] [2] [2]) false]).add
        (purchaseOf 1 [33] [49, 55] [2] [2]) false).2.isOk = true := by
  decide +kernel

end

end GethComments.TxPool
