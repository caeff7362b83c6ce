import GethComments.Crypto.ZkpBalance
import GethComments.RawDB.Commitments

/-!
# The rules of the pool on commitments and proofs

`validateSign`, `verifyzkp`, `validateCM`, `processCM` and `reorgCM` of `tx_pool.go`,
on the commitment database and the keys they read.

* `validateCM_transfer_eq_none`, `validateCM_purchase_eq_none`: what an admitted
  transaction has been checked for.
* `processCM_of_locks`, `reorgCM_of_locks`: both write the one record the transaction locks.
-/

namespace GethComments

open RawDB

/-- The errors of `add`. -/
inductive TxError where
  | alreadyKnown
  | invalidSender
  | nonceTooLow
  | underpriced
  | replaceUnderpriced
  | gasLimit
  | negativeValue
  | oversizedData
  | verifySig
  | verifyEvSFormatProof
  | verifyEvRFormatProof
  | verifyBalanceProof
  | verifyTotalEqualityProof
  | verifySpkEqualityProof
  | verifyRpkEqualityProof
  | idFormat
  | existedCM
  | invalidCM
  | id
  deriving DecidableEq, Repr

variable [HashFns]

/-- The issuer signature of a purchase, under the exchange's key. -/
def validateSign (exchange : Zkp.PublicKey) (tx : Transaction) : Option TxError :=
  if Zkp.verify HashFns.sum256 exchange tx.sig then none else some .verifySig

/-- The six proofs of a transfer, under the regulator's key. -/
def verifyzkp (regulator : Zkp.PublicKey) (tx : Transaction) : Option TxError :=
  if !Zkp.verifyFormatProof HashFns.sum256 tx.evs regulator tx.cmsFP then
    some .verifyEvSFormatProof
  else if !Zkp.verifyFormatProof HashFns.sum256 tx.evr regulator tx.cmrFP then
    some .verifyEvRFormatProof
  else if !Zkp.verifyBalanceProof HashFns.sum256 tx.cmR tx.cmS tx.cmO regulator tx.bp then
    some .verifyBalanceProof
  else if !Zkp.verifyEqualityProof HashFns.sum256 regulator regulator tx.evo ⟨[], tx.cmO⟩
      tx.evoEP then
    some .verifyTotalEqualityProof
  else if !Zkp.verifyEqualityProof HashFns.sum256 regulator regulator tx.erpk ⟨[], tx.cmRpk⟩
      tx.erpkEP then
    some .verifyRpkEqualityProof
  else if !Zkp.verifyEqualityProof HashFns.sum256 regulator regulator tx.espk ⟨[], tx.cmSpk⟩
      tx.espkEP then
    some .verifySpkEqualityProof
  else none

/-- The check of the commitments against the database. -/
def validateCM (db : CMdb) (tx : Transaction) : Option TxError :=
  if tx.id = 1 then
    if hasCM db (cmHash tx.cmV) then some .existedCM else none
  else if tx.id = 0 then
    match readCM db (cmHash tx.cmO) with
    | none => some .invalidCM
    | some cmO =>
      if cmO.spent || cmO.lock then some .invalidCM
      else if hasCM db (cmHash tx.cmS) then some .existedCM
      else if hasCM db (cmHash tx.cmR) then some .existedCM
      else none
  else some .id

/-- Locks the commitment of a transaction that enters the pool. The outputs of a
transfer are not recorded. -/
def processCM (db : CMdb) (tx : Transaction) : CMdb :=
  if tx.id = 1 then
    writeCM db (cmHash tx.cmV) { newDefaultCM tx.cmV with lock := true }
  else if tx.id = 0 then
    writeCM db (cmHash tx.cmO) { newDefaultCM tx.cmO with lock := true }
  else db

/-- Unlocks the commitment of a transaction that leaves the pool, by writing a fresh
record over it. -/
def reorgCM (db : CMdb) (tx : Transaction) : CMdb :=
  if tx.id = 1 then writeCM db (cmHash tx.cmV) (newDefaultCM tx.cmV)
  else if tx.id = 0 then writeCM db (cmHash tx.cmO) (newDefaultCM tx.cmO)
  else db

/-! ## The record a pooled transaction holds -/

namespace Transaction

/-- The commitment a pooled transaction locks: `CmV` of a purchase, `CmO` of a transfer. -/
def lockCm (tx : Transaction) : Option Bytes :=
  if tx.id = 1 then some tx.cmV else if tx.id = 0 then some tx.cmO else none

/-- The transaction locks the record under `k`. -/
def Locks (tx : Transaction) (k : Hash) : Prop := ∃ cm, tx.lockCm = some cm ∧ cmHash cm = k

theorem locks_iff (tx : Transaction) (k : Hash) :
    tx.Locks k ↔ tx.id = 1 ∧ cmHash tx.cmV = k ∨ tx.id = 0 ∧ cmHash tx.cmO = k := by
  unfold Locks lockCm
  by_cases h1 : tx.id = 1
  · simp [h1]
  · by_cases h0 : tx.id = 0 <;> simp [h0, h1]

theorem Locks.unique {tx : Transaction} {k k' : Hash} (h : tx.Locks k) (h' : tx.Locks k') :
    k = k' := by
  obtain ⟨cm, hcm, rfl⟩ := h
  obtain ⟨cm', hcm', rfl⟩ := h'
  rw [hcm] at hcm'
  cases hcm'
  rfl

end Transaction

section Records

variable {db : CMdb} {tx : Transaction} {k : Hash}

theorem processCM_eq (db : CMdb) (tx : Transaction) : processCM db tx = (tx.lockCm.map fun cm =>
    writeCM db (cmHash cm) { newDefaultCM cm with lock := true }).getD db := by
  unfold processCM Transaction.lockCm
  split_ifs <;> rfl

theorem reorgCM_eq (db : CMdb) (tx : Transaction) : reorgCM db tx = (tx.lockCm.map fun cm =>
    writeCM db (cmHash cm) (newDefaultCM cm)).getD db := by
  unfold reorgCM Transaction.lockCm
  split_ifs <;> rfl

theorem processCM_of_locks (db : CMdb) (h : tx.Locks k) :
    ∃ cm, processCM db tx k = some ⟨cm, false, true⟩ := by
  obtain ⟨cm, hcm, rfl⟩ := h
  exact ⟨cm, by simp [processCM_eq, hcm, writeCM, newDefaultCM]⟩

theorem reorgCM_of_locks (db : CMdb) (h : tx.Locks k) :
    ∃ cm, reorgCM db tx k = some (newDefaultCM cm) := by
  obtain ⟨cm, hcm, rfl⟩ := h
  exact ⟨cm, by simp [reorgCM_eq, hcm, writeCM]⟩

theorem writeLocked_of_not_locks (db : CMdb) (h : ¬tx.Locks k) (record : Bytes → CM) :
    (tx.lockCm.map fun cm => writeCM db (cmHash cm) (record cm)).getD db k = db k := by
  cases hcm : tx.lockCm with
  | none => rfl
  | some cm =>
    have hk : k ≠ cmHash cm := fun hk => h ⟨cm, hcm, hk.symm⟩
    simp [writeCM, hk]

theorem processCM_of_not_locks (db : CMdb) (h : ¬tx.Locks k) : processCM db tx k = db k := by
  rw [processCM_eq, writeLocked_of_not_locks db h]

theorem reorgCM_of_not_locks (db : CMdb) (h : ¬tx.Locks k) : reorgCM db tx k = db k := by
  rw [reorgCM_eq, writeLocked_of_not_locks db h]

theorem validateCM_purchase_eq_none (h1 : tx.id = 1) :
    validateCM db tx = none ↔ db (cmHash tx.cmV) = none := by
  cases hV : db (cmHash tx.cmV) <;> simp [validateCM, h1, hasCM, hV]

theorem validateCM_transfer_eq_none (h0 : tx.id = 0) : validateCM db tx = none ↔
      (∃ cm, db (cmHash tx.cmO) = some (newDefaultCM cm)) ∧ db (cmHash tx.cmS) = none ∧
        db (cmHash tx.cmR) = none := by
  cases hO : db (cmHash tx.cmO) with
  | none => simp [validateCM, h0, readCM, hO]
  | some cmO =>
    have hkey : validateCM db tx =
        if cmO.spent || cmO.lock then some .invalidCM
        else if (db (cmHash tx.cmS)).isSome then some .existedCM
        else if (db (cmHash tx.cmR)).isSome then some .existedCM
        else none := by
      have h1 : tx.id ≠ 1 := by simp [h0]
      unfold validateCM
      rw [if_neg h1, if_pos h0]
      simp only [readCM, hO]
      rfl
    obtain ⟨cm, spent, lock⟩ := cmO
    rw [hkey]
    cases spent <;> cases lock <;> cases db (cmHash tx.cmS) <;> cases db (cmHash tx.cmR) <;>
      simp [newDefaultCM]

theorem id_of_validateCM_eq_none (h : validateCM db tx = none) : tx.id = 1 ∨ tx.id = 0 := by
  by_contra hid
  rw [not_or] at hid
  simp [validateCM, hid.1, hid.2] at h

end Records

end GethComments

/-! ## Two transfers over the prime 23 -/

namespace GethComments

attribute [local instance] HashFns.plain

/-- The transfers of a commitment to 7 that `split34` and `split16` are cases of: one
choice of all nonces, and the fields that depend on the two amounts. -/
def splitSeven (cmS cmR cmsFPZ1 cmrFPZ1 bpRV bpSV : Bytes) : Transaction :=
  { (default : Transaction) with
    id := 0
    erpkC1 := [3], erpkC2 := [3], espkC1 := [21], espkC2 := [7], cmRpk := [1], cmSpk := [10]
    erpkEPs0 := [12], erpkEPs1 := [12], erpkEPs2 := [5], erpkEPs3 := [18], erpkEPt := [21]
    espkEPs0 := [19], espkEPs1 := [19], espkEPs2 := [4], espkEPs3 := [3], espkEPt := [19]
    evSC1 := [16], evSC2 := cmS, evRC1 := [19], evRC2 := cmR, cmS, cmR
    cmsFPC := [9], cmsFPZ1, cmsFPZ2 := [16], cmrFPC := [4], cmrFPZ1, cmrFPZ2 := [17]
    evOC1 := [10], evOC2 := [4], cmO := [10]
    evOEPs0 := [], evOEPs1 := [], evOEPs2 := [21], evOEPs3 := [21], evOEPt := [15]
    bpC := [7], bpRV, bpRR := [18], bpSV, bpSR := [11], bpSOr := [10] }

def split34 : Transaction := splitSeven [15] [22] [8] [2] [20] [7]

def split16 : Transaction := splitSeven [19] [21] [4] [16] [6] [21]

theorem verifyzkp_split34 : verifyzkp Zkp.key23 split34 = none := by decide +kernel

theorem verifyzkp_split16 : verifyzkp Zkp.key23 split16 = none := by decide +kernel

end GethComments
