import GethComments.Crypto.Zkp
import GethComments.Types.Rlp

/-!
# Transactions

The data of a transaction with the commitment and proof fields the repository
adds, its hash, and the accessors that assemble the arguments of the verifiers.
An identifier of 1 marks a purchase of coins, 0 a transfer. The byte fields are
pointers in the source; a decoded transaction has none of them nil.
-/

namespace GethComments

/-- The fields of `txdata`, in order. -/
structure Transaction where
  accountNonce : UInt64
  price : Nat
  gasLimit : UInt64
  recipient : Option Address
  amount : Int
  payload : Bytes
  id : UInt64
  erpkC1 : Bytes
  erpkC2 : Bytes
  espkC1 : Bytes
  espkC2 : Bytes
  cmRpk : Bytes
  cmSpk : Bytes
  erpkEPs0 : Bytes
  erpkEPs1 : Bytes
  erpkEPs2 : Bytes
  erpkEPs3 : Bytes
  erpkEPt : Bytes
  espkEPs0 : Bytes
  espkEPs1 : Bytes
  espkEPs2 : Bytes
  espkEPs3 : Bytes
  espkEPt : Bytes
  evSC1 : Bytes
  evSC2 : Bytes
  evRC1 : Bytes
  evRC2 : Bytes
  cmS : Bytes
  cmR : Bytes
  cmsFPC : Bytes
  cmsFPZ1 : Bytes
  cmsFPZ2 : Bytes
  cmrFPC : Bytes
  cmrFPZ1 : Bytes
  cmrFPZ2 : Bytes
  evsBsC1 : Bytes
  evsBsC2 : Bytes
  evOC1 : Bytes
  evOC2 : Bytes
  cmO : Bytes
  evOEPs0 : Bytes
  evOEPs1 : Bytes
  evOEPs2 : Bytes
  evOEPs3 : Bytes
  evOEPt : Bytes
  bpC : Bytes
  bpRV : Bytes
  bpRR : Bytes
  bpSV : Bytes
  bpSR : Bytes
  bpSOr : Bytes
  epkrC1 : Bytes
  epkrC2 : Bytes
  epkpC1 : Bytes
  epkpC2 : Bytes
  sigM : Bytes
  sigMHash : Bytes
  sigR : Bytes
  sigS : Bytes
  cmV : Bytes
  cmSRC1 : Bytes
  cmSRC2 : Bytes
  cmRRC1 : Bytes
  cmRRC2 : Bytes
  v : Nat
  r : Nat
  s : Nat
  pk : Bytes
  deriving DecidableEq, Inhabited

namespace Transaction

open Rlp

/-- The fields of type `*hexutil.Bytes`, which stand one after the other. -/
def hexBytes (tx : Transaction) : List Bytes := [
  tx.erpkC1, tx.erpkC2, tx.espkC1, tx.espkC2, tx.cmRpk, tx.cmSpk, tx.erpkEPs0, tx.erpkEPs1,
  tx.erpkEPs2, tx.erpkEPs3, tx.erpkEPt, tx.espkEPs0, tx.espkEPs1, tx.espkEPs2, tx.espkEPs3,
  tx.espkEPt, tx.evSC1, tx.evSC2, tx.evRC1, tx.evRC2, tx.cmS, tx.cmR, tx.cmsFPC, tx.cmsFPZ1,
  tx.cmsFPZ2, tx.cmrFPC, tx.cmrFPZ1, tx.cmrFPZ2, tx.evsBsC1, tx.evsBsC2, tx.evOC1, tx.evOC2,
  tx.cmO, tx.evOEPs0, tx.evOEPs1, tx.evOEPs2, tx.evOEPs3, tx.evOEPt, tx.bpC, tx.bpRV, tx.bpRR,
  tx.bpSV, tx.bpSR, tx.bpSOr, tx.epkrC1, tx.epkrC2, tx.epkpC1, tx.epkpC2, tx.sigM, tx.sigMHash,
  tx.sigR, tx.sigS, tx.cmV, tx.cmSRC1, tx.cmSRC2, tx.cmRRC1, tx.cmRRC2]

/-- The fields as `EncodeRLP` writes them. -/
def rlpFields (tx : Transaction) : List Bytes :=
  [encodeUint tx.accountNonce.toNat, encodeUint tx.price, encodeUint tx.gasLimit.toNat,
    encodeString (tx.recipient.getD []), encodeUint tx.amount.toNat, encodeString tx.payload,
    encodeUint tx.id.toNat] ++ tx.hexBytes.map encodeString ++
    [encodeUint tx.v, encodeUint tx.r, encodeUint tx.s, encodeString tx.pk]

/-- `EncodeRLP`; a negative amount makes the encoder fail and nothing is written. -/
def encodeRLP (tx : Transaction) : Bytes :=
  if tx.amount < 0 then [] else encodeList tx.rlpFields

def hash [HashFns] (tx : Transaction) : Hash := HashFns.keccak256 tx.encodeRLP

def size (tx : Transaction) : Nat := tx.encodeRLP.length

/-- `amount + gasprice * gaslimit`. -/
def cost (tx : Transaction) : Int := tx.price * tx.gasLimit.toNat + tx.amount

/-! ## Arguments of the verifiers -/

def evs (tx : Transaction) : Zkp.CypherText := ⟨tx.evSC1, tx.evSC2⟩

def evr (tx : Transaction) : Zkp.CypherText := ⟨tx.evRC1, tx.evRC2⟩

def cmsFP (tx : Transaction) : Zkp.FormatProof := ⟨tx.cmsFPC, tx.cmsFPZ1, tx.cmsFPZ2⟩

def cmrFP (tx : Transaction) : Zkp.FormatProof := ⟨tx.cmrFPC, tx.cmrFPZ1, tx.cmrFPZ2⟩

def bp (tx : Transaction) : Zkp.BalanceProof where
  c := tx.bpC
  rV := tx.bpRV
  rR := tx.bpRR
  sV := tx.bpSV
  sR := tx.bpSR
  sOr := tx.bpSOr

def evo (tx : Transaction) : Zkp.CypherText := ⟨tx.evOC1, tx.evOC2⟩

def erpk (tx : Transaction) : Zkp.CypherText := ⟨tx.erpkC1, tx.erpkC2⟩

def espk (tx : Transaction) : Zkp.CypherText := ⟨tx.espkC1, tx.espkC2⟩

def evoEP (tx : Transaction) : Zkp.EqualityProof :=
  ⟨[tx.evOEPs0, tx.evOEPs1, tx.evOEPs2, tx.evOEPs3], tx.evOEPt⟩

def erpkEP (tx : Transaction) : Zkp.EqualityProof :=
  ⟨[tx.erpkEPs0, tx.erpkEPs1, tx.erpkEPs2, tx.erpkEPs3], tx.erpkEPt⟩

def espkEP (tx : Transaction) : Zkp.EqualityProof :=
  ⟨[tx.espkEPs0, tx.espkEPs1, tx.espkEPs2, tx.espkEPs3], tx.espkEPt⟩

/-- The issuer signature of a purchase. -/
def sig (tx : Transaction) : Zkp.Signature := ⟨tx.sigM, tx.sigMHash, tx.sigR, tx.sigS⟩

end Transaction

/-- `TxDifference`: the transactions of `a` whose hash does not occur in `b`. -/
def txDifference [HashFns] (a b : List Transaction) : List Transaction :=
  a.filter fun tx => tx.hash ∉ b.map Transaction.hash

end GethComments
