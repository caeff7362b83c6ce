import GethComments.Crypto.Signature
import GethComments.Rlp.Raw
import GethComments.Types.TransactionRlp

/-!
# Signers

`transaction_signing.go`: what a signer hashes, how `SignTx` splits a signature over the fields
of the transaction and how `Sender` puts it together again. The cache of senders is left out.

* `preimage_eq_iff`: which fields the hash of a signer covers;
* `sender_signTx`: `Sender` returns the address of the key that signed.
-/

namespace GethComments

open Crypto List

inductive Signer where
  | frontier
  | homestead
  | eip155 (chainId : Nat)
  deriving DecidableEq, Repr

open Rlp

/-! ## What is signed -/

/-- The fields that every signer hashes. -/
def Transaction.signedFields (tx : Transaction) : List Bytes := [
  encodeUint tx.accountNonce.toNat, encodeUint tx.price, encodeUint tx.gasLimit.toNat,
  encodeString (tx.recipient.getD []), encodeUint tx.amount.toNat, encodeString tx.payload]

namespace Signer

def fields : Signer → Transaction → List Bytes
  | eip155 chainId, tx => tx.signedFields ++ [encodeUint chainId, encodeUint 0, encodeUint 0]
  | _, tx => tx.signedFields

/-- What `rlpHash` hashes; as in `EncodeRLP` nothing is written for a negative amount. -/
def preimage (signer : Signer) (tx : Transaction) : Bytes :=
  if tx.amount < 0 then [] else encodeList (signer.fields tx)

def hash [HashFns] (signer : Signer) (tx : Transaction) : Hash :=
  HashFns.keccak256 (signer.preimage tx)

end Signer

/-! ## The value `V` -/

def isProtectedV (v : Nat) : Bool := decide (256 ≤ v ∨ v ≠ 27 ∧ v ≠ 28)

/-- `deriveChainId`; up to 64 bits the subtraction wraps. -/
def deriveChainId (v : Nat) : Nat :=
  if v < 2 ^ 64 then
    if v = 27 ∨ v = 28 then 0 else ((UInt64.ofNat v - 35) / 2).toNat
  else (v - 35) / 2

section Keys

variable {PrivateKey PublicKey : Type} (C : Crypto PrivateKey PublicKey)

/-! ## Recovering the sender -/

def recoverPlain (sighash : Hash) (r s : Nat) (vb : Int) (homestead : Bool) (pk : Bytes) :
    Except SignError Address :=
  if 256 ≤ vb.natAbs then .error .invalidSig
  else
    let v := (UInt64.ofNat vb.natAbs - 27).toUInt8
    if validateSignatureValues C.cryptoType v r s homestead = false then .error .invalidSig
    else
      match signatureBuffer signatureLength r s v with
      | .error err => .error err
      | .ok sig =>
        match C.ecrecover sighash (copyTo sig 65 pk) with
        | .error err => .error err
        | .ok pub =>
          if pub.head? ≠ some 4 then .error .invalidPublicKey
          else .ok ((C.keccak256 pub.tail).drop 12)

variable [HashFns]

namespace Signer

def frontierSender (tx : Transaction) : Except SignError Address :=
  recoverPlain C (hash frontier tx) tx.r tx.s tx.v false tx.pk

def homesteadSender (tx : Transaction) : Except SignError Address :=
  recoverPlain C (hash homestead tx) tx.r tx.s tx.v true tx.pk

/-- A transaction that is not protected is one of the homestead signer. -/
def eip155Sender (chainId : Nat) (tx : Transaction) : Except SignError Address :=
  if isProtectedV tx.v = false then homesteadSender C tx
  else if deriveChainId tx.v ≠ chainId then .error .invalidChainId
  else
    recoverPlain C (hash (eip155 chainId) tx) tx.r tx.s ((tx.v : Int) - 2 * chainId - 8) true tx.pk

/-- `Sender`. -/
def sender : Signer → Transaction → Except SignError Address
  | frontier, tx => frontierSender C tx
  | homestead, tx => homesteadSender C tx
  | eip155 chainId, tx => eip155Sender C chainId tx

end Signer

/-! ## Signing -/

end Keys

namespace Signer

/-- The values of the frontier and homestead signers. -/
def frontierSignatureValues (sig : Bytes) : Except SignError (Nat × Nat × Nat) :=
  if sig.length ≠ signatureLength then
    .error (.panics ("wrong size for signature: got " ++ toString sig.length ++ ", want 97"))
  else
    .ok (setBytes (sig.take 32), setBytes ((sig.drop 32).take 32), setBytes [(sig.getD 64 0) + 27])

/-- `SignatureValues`, with the transaction it leaves: only the EIP155 signer stores the
bytes after `R`, `S` and `V` in it. -/
def signatureValues : Signer → Transaction → Bytes →
    Except SignError (Transaction × Nat × Nat × Nat)
  | eip155 chainId, tx, sig =>
    match frontierSignatureValues sig with
    | .error err => .error err
    | .ok (r, s, v) =>
      let v := if chainId ≠ 0 then ((sig.getD 64 0) + 35).toNat + 2 * chainId else v
      .ok ({ tx with pk := sig.drop 65 }, r, s, v)
  | _, tx, sig => (frontierSignatureValues sig).map fun (r, s, v) => (tx, r, s, v)

end Signer

def Transaction.withSignature (tx : Transaction) (signer : Signer) (sig : Bytes) :
    Except SignError Transaction :=
  match signer.signatureValues tx sig with
  | .error err => .error err
  | .ok (tx, r, s, v) => .ok { tx with r, s, v }

def signTx [HashFns] {PrivateKey PublicKey : Type} (C : Crypto PrivateKey PublicKey)
    (tx : Transaction) (signer : Signer) (prv : PrivateKey) : Except SignError Transaction :=
  match C.sign (signer.hash tx) prv with
  | .error err => .error err
  | .ok sig => tx.withSignature signer sig

/-! ## Fields under the signature -/

/-- The fields that a signature covers. -/
structure Transaction.SameSigned (tx tx' : Transaction) : Prop where
  accountNonce : tx.accountNonce = tx'.accountNonce
  price : tx.price = tx'.price
  gasLimit : tx.gasLimit = tx'.gasLimit
  recipient : tx.recipient = tx'.recipient
  amount : tx.amount = tx'.amount
  payload : tx.payload = tx'.payload

/-- What the encoder needs to write the fields, as in `Transaction.Encodable`. -/
structure Signer.Signable (signer : Signer) (tx : Transaction) : Prop where
  amount : 0 ≤ tx.amount
  recipient : ∀ a, tx.recipient = some a → a.length = 20
  size : (signer.fields tx).flatten.length < sizeBound

theorem Transaction.SameSigned.preimage {tx tx' : Transaction} (h : tx.SameSigned tx')
    (signer : Signer) : signer.preimage tx = signer.preimage tx' := by
  have hfields : tx.signedFields = tx'.signedFields := by
    simp only [Transaction.signedFields, h.accountNonce, h.price, h.gasLimit, h.recipient, h.amount,
      h.payload]
  cases signer <;> simp only [Signer.preimage, Signer.fields, hfields, h.amount]

/-- An address is not empty, so that none is taken for a missing one. -/
theorem address_inj {a b : Option Address} (ha : ∀ x, a = some x → x.length = 20)
    (hb : ∀ x, b = some x → x.length = 20) (h : a.getD [] = b.getD []) : a = b := by
  have hlen := congrArg length h
  cases a with
  | none =>
    cases b with
    | none => rfl
    | some y => simp [hb y rfl] at hlen
  | some x =>
    cases b with
    | none => simp [ha x rfl] at hlen
    | some y => exact congrArg some h

/-- The fields are read off the preimage one after the other. -/
theorem signedFields_inj {tx tx' : Transaction} {rest rest' : List Bytes} (hpos : 0 ≤ tx.amount)
    (hpos' : 0 ≤ tx'.amount) (hlen : (tx.signedFields ++ rest).flatten.length < sizeBound)
    (htx : ∀ a, tx.recipient = some a → a.length = 20)
    (htx' : ∀ a, tx'.recipient = some a → a.length = 20)
    (h : (tx.signedFields ++ rest).flatten = (tx'.signedFields ++ rest').flatten) :
    tx.SameSigned tx' := by
  simp only [Transaction.signedFields, cons_append, nil_append, flatten_cons]
    at h hlen
  obtain ⟨hnonce, h, hlen⟩ := encodeUint_append_inj hlen h
  obtain ⟨hprice, h, hlen⟩ := encodeUint_append_inj hlen h
  obtain ⟨hgas, h, hlen⟩ := encodeUint_append_inj hlen h
  obtain ⟨hto, h, hlen⟩ := encodeString_append_inj hlen h
  obtain ⟨hamount, h, hlen⟩ := encodeUint_append_inj hlen h
  obtain ⟨hpayload, -, -⟩ := encodeString_append_inj hlen h
  exact ⟨UInt64.toNat_inj.mp hnonce, hprice, UInt64.toNat_inj.mp hgas, address_inj htx htx' hto,
    by omega, hpayload⟩

theorem preimage_eq_iff {signer : Signer} {tx tx' : Transaction} (htx : signer.Signable tx)
    (htx' : signer.Signable tx') : signer.preimage tx = signer.preimage tx' ↔
      tx.SameSigned tx' := by
  refine ⟨fun h => ?_, fun h => h.preimage signer⟩
  rw [Signer.preimage, Signer.preimage, if_neg (Int.not_lt.mpr htx.amount),
    if_neg (Int.not_lt.mpr htx'.amount)] at h
  have hflat := encodeList_inj htx.size htx'.size h
  have hsize := htx.size
  have hshape : ∃ rest : List Bytes, ∀ tx, signer.fields tx = tx.signedFields ++ rest := by
    cases signer with
    | frontier => exact ⟨[], fun tx => (append_nil _).symm⟩
    | homestead => exact ⟨[], fun tx => (append_nil _).symm⟩
    | eip155 chainId => exact ⟨_, fun tx => rfl⟩
  obtain ⟨rest, hrest⟩ := hshape
  rw [hrest, hrest] at hflat
  rw [hrest] at hsize
  exact signedFields_inj htx.amount htx'.amount hsize htx.recipient htx'.recipient hflat

/-! ## A signature taken apart and put together -/

variable {v : UInt8} {tail : Bytes} {tx tx' : Transaction} {r s : Nat}

section Parts

variable {PrivateKey PublicKey : Type} {C : Crypto PrivateKey PublicKey}

theorem toUInt8_sub_27 (hv : v = 0 ∨ v = 1) : (UInt64.ofNat (27 + v.toNat) - 27).toUInt8 = v := by
  rcases hv with rfl | rfl <;> rfl

variable {hash : Bytes}

theorem recoverPlain_eq {prv : PrivateKey} (hparts : SignatureParts C hash prv r s v tail)
    (homestead : Bool) (pk : Bytes) :
    recoverPlain C hash r s (27 + v.toNat : Nat) homestead pk =
      match C.ecrecover hash (word r ++ word s ++ [v] ++ fit32 pk) with
      | .error err => .error err
      | .ok pub =>
        if pub.head? ≠ some 4 then .error .invalidPublicKey
        else .ok ((C.keccak256 pub.tail).drop 12) := by
  have hsmall : ¬256 ≤ ((27 + v.toNat : Nat) : Int).natAbs := by
    rw [Int.natAbs_natCast]
    rcases hparts.parity with rfl | rfl <;> decide
  have hvalid : validateSignatureValues C.cryptoType v r s homestead = true := by
    cases homestead with
    | true => exact hparts.valid
    | false => exact validateSignatureValues_frontier hparts.valid
  have hbuffer : signatureBuffer signatureLength r s v =
      .ok (word r ++ word s ++ [v] ++ replicate 32 0) :=
    signatureBuffer_eq v hparts.r_lt hparts.s_lt 32
  rw [recoverPlain, if_neg hsmall, Int.natAbs_natCast]
  simp only [toUInt8_sub_27 hparts.parity, hvalid, hbuffer, copyTo_tail hparts.length_head,
    Bool.true_eq_false, if_false]

/-- The sender is recovered if the last 32 bytes are not read, or are read as those of the
signature. -/
theorem recoverPlain_parts (hC : C.Correct) {prv : PrivateKey} {pk : Bytes}
    (hparts : SignatureParts C hash prv r s v tail)
    (hpk : C.cryptoType = .eccSh3Aes ∨ setBytes (fit32 pk) = setBytes tail) (homestead : Bool) :
    recoverPlain C hash r s (27 + v.toNat : Nat) homestead pk =
      .ok (C.pubkeyToAddress (C.publicKey prv)) := by
  have hrecover : C.ecrecover hash (word r ++ word s ++ [v] ++ fit32 pk) =
      .ok (C.fromECDSAPub (C.publicKey prv)) := by
    rw [← hparts.recovers]
    cases htype : C.cryptoType with
    | eccSh3Aes => exact ecrecover_ecc htype hparts.length_head
    | sm2Sm3Sm4 =>
      rw [htype] at hpk
      exact ecrecover_sm2 htype hparts.length_head (hpk.resolve_left (by simp))
  simp only [recoverPlain_eq hparts, hrecover, hC.uncompressed, pubkeyToAddress, ne_eq,
    not_true_eq_false, if_false]

theorem recoverPlain_sm2_eq_ok (hsm2 : C.cryptoType = .sm2Sm3Sm4) {prv : PrivateKey} {pk : Bytes}
    (hparts : SignatureParts C hash prv r s v tail) {homestead : Bool} {addr : Address}
    (h : recoverPlain C hash r s (27 + v.toNat : Nat) homestead pk = .ok addr) :
    ∃ pub, addr = C.pubkeyToAddress pub ∧ C.calculateE pub hash = setBytes (fit32 pk) := by
  rw [recoverPlain_eq hparts] at h
  split at h
  case h_1 => cases h
  case h_2 hkey =>
    obtain ⟨pub, rfl, he⟩ := ecrecover_sm2_eq_ok hsm2 hparts.length_head hkey
    split at h
    case isTrue => cases h
    case isFalse =>
      cases h
      exact ⟨pub, rfl, he⟩

theorem getD_64_parts {prv : PrivateKey} (hparts : SignatureParts C hash prv r s v tail) :
    (word r ++ word s ++ [v] ++ tail).getD 64 0 = v := by
  have hlen : (word r ++ word s).length = 64 := by
    rw [length_append, length_word hparts.r_lt, length_word hparts.s_lt]
  rw [append_assoc, getD_eq_getElem?_getD, getElem?_append_right (by omega), hlen]
  rfl

theorem frontierSignatureValues_parts {prv : PrivateKey}
    (hparts : SignatureParts C hash prv r s v tail) :
    Signer.frontierSignatureValues (word r ++ word s ++ [v] ++ tail) =
      .ok (r, s, 27 + v.toNat) := by
  have hr := length_word hparts.r_lt
  have hs := length_word hparts.s_lt
  have htake : (word r ++ word s ++ [v] ++ tail).take 32 = word r := by
    rw [append_assoc, append_assoc, take_left' hr]
  have hmid : ((word r ++ word s ++ [v] ++ tail).drop 32).take 32 =
      word s := by
    rw [append_assoc, append_assoc, drop_left' hr, take_left' hs]
  have hbyte : setBytes [v + 27] = 27 + v.toNat := by
    rcases hparts.parity with rfl | rfl <;> rfl
  rw [Signer.frontierSignatureValues, if_neg (by
    simp only [length_append, hr, hs, length_singleton, hparts.length_tail]; decide)]
  rw [htake, hmid, getD_64_parts hparts, hbyte, setBytes_word, setBytes_word]

theorem deriveChainId_eip155 {chainId b : Nat} (hb : b ≤ 1) :
    deriveChainId (35 + b + 2 * chainId) = chainId := by
  have hhalf : (35 + b + 2 * chainId - 35) / 2 = chainId := by omega
  unfold deriveChainId
  split
  case isTrue hlt =>
    have hne : ¬(35 + b + 2 * chainId = 27 ∨ 35 + b + 2 * chainId = 28) := by omega
    have hnat : (UInt64.ofNat (35 + b + 2 * chainId)).toNat = 35 + b + 2 * chainId :=
      UInt64.toNat_ofNat_of_lt' hlt
    have hle : (35 : UInt64) ≤ UInt64.ofNat (35 + b + 2 * chainId) := by
      rw [UInt64.le_iff_toNat_le, hnat]
      show 35 ≤ 35 + b + 2 * chainId
      omega
    have hsub : (UInt64.ofNat (35 + b + 2 * chainId) - 35).toNat = 35 + b + 2 * chainId - 35 := by
      rw [UInt64.toNat_sub_of_le _ _ hle, hnat]
      rfl
    rw [if_neg hne, UInt64.toNat_div, hsub]
    exact hhalf
  case isFalse => exact hhalf

end Parts

/-! ## Senders -/

section Senders

variable [HashFns] {PrivateKey PublicKey : Type} {C : Crypto PrivateKey PublicKey}

theorem Transaction.SameSigned.sender (h : tx.SameSigned tx')
    (hv : tx.v = tx'.v) (hr : tx.r = tx'.r) (hs : tx.s = tx'.s) (hpk : tx.pk = tx'.pk)
    (signer : Signer) : signer.sender C tx = signer.sender C tx' := by
  have hhash : ∀ signer : Signer, signer.hash tx = signer.hash tx' := fun signer =>
    congrArg HashFns.keccak256 (h.preimage signer)
  cases signer <;> simp only [Signer.sender, Signer.frontierSender, Signer.homesteadSender,
    Signer.eip155Sender, hhash, hv, hr, hs, hpk]

/-- **What a signature covers.** Two transactions have the same preimage exactly if they agree
on the six fields that the protocol had before the commitments were added. Whatever the
transactions have in the other fields, `Sender` does not see it. -/
theorem signature_covers (signer : Signer) :
    (∀ tx tx' : Transaction, signer.Signable tx → signer.Signable tx' →
      (signer.preimage tx = signer.preimage tx' ↔ tx.SameSigned tx')) ∧
    ∀ tx tx' : Transaction, tx.SameSigned tx' → tx.v = tx'.v → tx.r = tx'.r → tx.s = tx'.s →
      tx.pk = tx'.pk → signer.sender C tx = signer.sender C tx' :=
  ⟨fun _ _ => preimage_eq_iff, fun _ _ h hv hr hs hpk => h.sender hv hr hs hpk signer⟩

theorem signTx_spec (hC : C.Correct) {signed : Transaction} {signer : Signer} {prv : PrivateKey}
    (h : signTx C tx signer prv = .ok signed) :
    ∃ r s v tail, SignatureParts C (signer.hash tx) prv r s v tail ∧
      match signer with
      | .eip155 chainId => signed = { tx with
          r, s, v := if chainId ≠ 0 then (v + 35).toNat + 2 * chainId else 27 + v.toNat,
          pk := tail }
      | _ => signed = { tx with r, s, v := 27 + v.toNat } := by
  unfold signTx at h
  cases hsign : C.sign (signer.hash tx) prv with
  | error err =>
    rw [hsign] at h
    cases h
  | ok sig =>
    rw [hsign] at h
    obtain ⟨r, s, v, tail, rfl, hparts⟩ := sign_spec hC hsign
    have htail := (take_drop_buffer v tail hparts.r_lt hparts.s_lt).2
    refine ⟨r, s, v, tail, hparts, ?_⟩
    cases signer with
    | frontier | homestead =>
      simp only [Transaction.withSignature, Signer.signatureValues,
        frontierSignatureValues_parts hparts, Except.map] at h
      cases h
      rfl
    | eip155 chainId =>
      simp only [Transaction.withSignature, Signer.signatureValues,
        frontierSignatureValues_parts hparts, getD_64_parts hparts, htail] at h
      cases h
      rfl

theorem eip155Sender_parts (hC : C.Correct) {chainId : Nat} {prv : PrivateKey}
    (hparts : SignatureParts C (Signer.hash (.eip155 chainId) tx) prv r s v tail)
    (hpos : 0 < chainId) :
    Signer.eip155Sender C chainId
        { tx with r, s, v := (v + 35).toNat + 2 * chainId, pk := tail } =
      .ok (C.pubkeyToAddress (C.publicKey prv)) := by
  have hb : v.toNat ≤ 1 := by rcases hparts.parity with rfl | rfl <;> decide
  have hv : (v + 35).toNat = 35 + v.toNat := by rcases hparts.parity with rfl | rfl <;> rfl
  have hprotected : isProtectedV (35 + v.toNat + 2 * chainId) = true := by
    simp only [isProtectedV, decide_eq_true_eq]
    omega
  have hvb : ((35 + v.toNat + 2 * chainId : Nat) : Int) - 2 * chainId - 8 =
      (27 + v.toNat : Nat) := by
    push_cast
    omega
  rw [hv]
  simp only [Signer.eip155Sender, hprotected, deriveChainId_eip155 hb, hvb, ne_eq,
    not_true_eq_false, if_false, Bool.true_eq_false]
  exact recoverPlain_parts hC hparts (.inr (by rw [fit32_of_length hparts.length_tail])) true

/-- The signature can be put together again: with secp256k1, with the EIP155 signer, and in SM2 with
the other signers if the transaction has the `e` of the signature in its field `PK` already. -/
def KeepsKey (C : Crypto PrivateKey PublicKey) (signer : Signer) (prv : PrivateKey)
    (tx : Transaction) : Prop :=
  C.cryptoType = .eccSh3Aes ∨ (∃ chainId, signer = .eip155 chainId) ∨
    setBytes (fit32 tx.pk) = C.calculateE (C.publicKey prv) (signer.hash tx)

theorem sender_of_keepsKey (hC : C.Correct) {signed : Transaction} {signer : Signer}
    {prv : PrivateKey} (hchain : ∀ chainId, signer = .eip155 chainId → 0 < chainId)
    (h : signTx C tx signer prv = .ok signed) (hkeeps : KeepsKey C signer prv tx) :
    signer.sender C signed = .ok (C.pubkeyToAddress (C.publicKey prv)) := by
  obtain ⟨r, s, v, tail, hparts, hsigned⟩ := signTx_spec hC h
  cases signer with
  | eip155 chainId =>
    have hpos := hchain chainId rfl
    simp only [ne_eq, Nat.pos_iff_ne_zero.mp hpos, not_false_eq_true, if_true] at hsigned
    rw [hsigned]
    exact eip155Sender_parts hC hparts hpos
  | frontier | homestead =>
    simp only at hsigned
    rw [hsigned]
    refine recoverPlain_parts hC hparts ?_ _
    rcases hkeeps with hecc | ⟨_, hne⟩ | he
    · exact .inl hecc
    · cases hne
    · cases htype : C.cryptoType with
      | eccSh3Aes => exact .inl rfl
      | sm2Sm3Sm4 => exact .inr (he.trans (hparts.digest htype).symm)

theorem keepsKey_of_sender (hC : C.Correct) {signed : Transaction} {signer : Signer}
    {prv : PrivateKey} (h : signTx C tx signer prv = .ok signed)
    (hone : ∀ pub, C.pubkeyToAddress pub = C.pubkeyToAddress (C.publicKey prv) →
      pub = C.publicKey prv)
    (hsender : signer.sender C signed = .ok (C.pubkeyToAddress (C.publicKey prv))) :
    KeepsKey C signer prv tx := by
  obtain ⟨r, s, v, tail, hparts, hsigned⟩ := signTx_spec hC h
  cases htype : C.cryptoType with
  | eccSh3Aes => exact .inl htype
  | sm2Sm3Sm4 =>
    cases signer with
    | eip155 chainId => exact .inr (.inl ⟨chainId, rfl⟩)
    | frontier | homestead =>
      simp only at hsigned
      rw [hsigned] at hsender
      obtain ⟨pub, hpub, he⟩ := recoverPlain_sm2_eq_ok htype hparts hsender
      rw [hone pub hpub.symm] at he
      exact .inr (.inr he.symm)

/-- **`Sender` inverts `SignTx`** exactly where the signature can be put together again, as far as
the signer's address belongs to no other key, also once the transaction was encoded and decoded. -/
theorem sender_signTx (hC : C.Correct) {tx signed : Transaction} {signer : Signer}
    {prv : PrivateKey} (hchain : ∀ chainId, signer = .eip155 chainId → 0 < chainId)
    (h : signTx C tx signer prv = .ok signed) :
    (KeepsKey C signer prv tx →
      signer.sender C signed = .ok (C.pubkeyToAddress (C.publicKey prv))) ∧
    ((∀ pub, C.pubkeyToAddress pub = C.pubkeyToAddress (C.publicKey prv) →
        pub = C.publicKey prv) →
      (signer.sender C signed = .ok (C.pubkeyToAddress (C.publicKey prv)) ↔
        KeepsKey C signer prv tx)) ∧
    (signed.Encodable → ∃ decoded, Transaction.decodeBytes signed.encodeRLP = some (.ok decoded) ∧
      signer.sender C decoded = signer.sender C signed) := by
  have hkeeps := sender_of_keepsKey hC hchain h
  exact ⟨hkeeps, fun hone => ⟨keepsKey_of_sender hC h hone, hkeeps⟩,
    fun henc => ⟨signed, Transaction.decodeBytes_encodeRLP henc, rfl⟩⟩

end Senders

section Runs

/-- Digests of 32 bytes, which signing with secp256k1 asks for. -/
abbrev HashFns.sha : HashFns := ⟨Sha256.sum256, Sha256.sum256⟩

attribute [local instance] HashFns.sha

/-- A transfer of the output `out`. -/
def spend (out : Bytes) : Transaction :=
  { (default : Transaction) with recipient := some zeroAddress, cmO := out }

/-- The transfer signed with the key 5 for the chain 7 in SM2. -/
def signedSpend : Transaction := { spend [10] with r := 6, s := 1, v := 50, pk := word 12 }

theorem signTx_spend : signTx (plain .sm2Sm3Sm4) (spend [10]) (.eip155 7) 5 =
    .ok signedSpend := by
  rfl

theorem signedSpend_encodable : signedSpend.Encodable where
  amount := by decide
  recipient := by
    rintro a h
    cases h
    decide
  size := by decide +kernel

theorem spend_signable (out : Bytes) : Signer.Signable (.eip155 7) (spend out) where
  amount := le_refl (0 : Int)
  recipient := by
    rintro a h
    cases h
    rfl
  size := by
    show (Signer.fields (.eip155 7) (spend [])).flatten.length < sizeBound
    decide

theorem signature_covers_spend :
    Signer.preimage (.eip155 7) (spend [10]) = Signer.preimage (.eip155 7) (spend [8]) ∧
      Signer.sender (Crypto.plain .sm2Sm3Sm4) (.eip155 7) (spend [10]) =
        Signer.sender (Crypto.plain .sm2Sm3Sm4) (.eip155 7) (spend [8]) := by
  have hcovers := signature_covers (C := plain .sm2Sm3Sm4) (.eip155 7)
  have hsame : (spend [10]).SameSigned (spend [8]) := ⟨rfl, rfl, rfl, rfl, rfl, rfl⟩
  exact ⟨(hcovers.1 _ _ (spend_signable [10]) (spend_signable [8])).mpr hsame,
    hcovers.2 _ _ hsame rfl rfl rfl rfl⟩

/-- A signed transfer whose output and kind another party replaces, with the same preimage
under every signer and the same sender. -/
theorem signature_misses_commitments :
    Signer.preimage .frontier (spend [10]) = Signer.preimage .frontier { spend [8] with id := 1 } ∧
      Signer.preimage .homestead (spend [10]) =
        Signer.preimage .homestead { spend [8] with id := 1 } ∧
      Signer.preimage (.eip155 7) (spend [10]) =
        Signer.preimage (.eip155 7) { spend [8] with id := 1 } ∧
      (spend [10]).cmO ≠ (spend [8]).cmO ∧ (spend [10]).id ≠ 1 ∧
      signTx (Crypto.plain .sm2Sm3Sm4) (spend [10]) (.eip155 7) 5 = .ok signedSpend ∧
      Signer.sender (Crypto.plain .sm2Sm3Sm4) (.eip155 7) signedSpend =
        .ok (List.replicate 19 0 ++ [5]) ∧
      Signer.sender (Crypto.plain .sm2Sm3Sm4) (.eip155 7) { signedSpend with cmO := [8], id := 1 } =
        .ok (List.replicate 19 0 ++ [5]) :=
  ⟨rfl, rfl, rfl, by decide, by decide, signTx_spend, by decide, by decide⟩

/-- The EIP155 signer keeps the `e` of the signature; the homestead signer relies on a field `PK`
that has it already. -/
theorem sender_signTx_spend :
    (∃ decoded, Transaction.decodeBytes signedSpend.encodeRLP = some (.ok decoded) ∧
      Signer.sender (Crypto.plain .sm2Sm3Sm4) (.eip155 7) decoded =
        .ok ((Crypto.plain .sm2Sm3Sm4).pubkeyToAddress 5)) ∧
    Signer.sender (Crypto.plain .sm2Sm3Sm4) .homestead
      { spend [10] with r := 6, s := 1, v := 28, pk := word 12 } =
        .ok ((Crypto.plain .sm2Sm3Sm4).pubkeyToAddress 5) := by
  have heip155 := sender_signTx (plain_correct .sm2Sm3Sm4)
    (by rintro _ h; cases h; decide) signTx_spend
  have hsigned : signTx (Crypto.plain .sm2Sm3Sm4) { spend [10] with pk := word 12 } .homestead 5 =
      .ok { spend [10] with r := 6, s := 1, v := 28, pk := word 12 } := rfl
  have hhomestead := sender_signTx (plain_correct .sm2Sm3Sm4) (by rintro _ h; cases h) hsigned
  constructor
  · obtain ⟨decoded, hdecoded, hsender⟩ := heip155.2.2 signedSpend_encodable
    exact ⟨decoded, hdecoded, hsender.trans (heip155.1 (.inr (.inl ⟨7, rfl⟩)))⟩
  · exact hhomestead.1 (.inr (.inr (by decide)))

/-- In SM2 the other two signers lose the `e` of the signature, and the key is not recovered. -/
theorem sender_loses_key_sm2 : signTx (Crypto.plain .sm2Sm3Sm4) (spend [10]) .homestead 5 =
        .ok { spend [10] with r := 6, s := 1, v := 28 } ∧
      signTx (Crypto.plain .sm2Sm3Sm4) (spend [10]) .frontier 5 =
        .ok { spend [10] with r := 6, s := 1, v := 28 } ∧
      Signer.sender (Crypto.plain .sm2Sm3Sm4) .homestead
        { spend [10] with r := 6, s := 1, v := 28 } = .error .sigToPub ∧
      Signer.sender (Crypto.plain .sm2Sm3Sm4) .frontier
        { spend [10] with r := 6, s := 1, v := 28 } = .error .sigToPub :=
  ⟨rfl, rfl, by decide, by decide⟩

end Runs

end GethComments
