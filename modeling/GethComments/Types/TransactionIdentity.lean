import GethComments.Types.TransactionSigning

/-!
# The field `PK` and the identity of a transaction

The hash of a transaction covers `PK` at any length, while `Sender` copies it into the last 32
bytes of a signature, and reads these only in SM2.

* `recoverPlain_cases`: what of `PK` recovery sees;
* `sender_determines_pk`: which other values of `PK` keep the sender;
* `withSignature_frame`: what `WithSignature` and `SignTx` leave of the original.
-/

namespace GethComments

open Crypto

variable {PrivateKey PublicKey : Type} {C : Crypto PrivateKey PublicKey}

/-- The last part of `recoverPlain`. -/
def addressOfRecovered (C : Crypto PrivateKey PublicKey) :
    Except SignError Bytes → Except SignError Address
  | .error err => .error err
  | .ok pub =>
    if pub.head? ≠ some 4 then .error .invalidPublicKey
    else .ok ((C.keccak256 pub.tail).drop 12)

/-- Recovery fails before it reads `PK`, or it reads the first 32 bytes of it, filled up with
zeros, behind a fixed head. -/
theorem recoverPlain_cases (C : Crypto PrivateKey PublicKey) (sighash : Hash) (r s : Nat) (vb : Int)
    (homestead : Bool) :
    (∃ err, ∀ pk, recoverPlain C sighash r s vb homestead pk = .error err) ∨
      ∃ head : Bytes, head.length = 65 ∧ ∀ pk, recoverPlain C sighash r s vb homestead pk =
        addressOfRecovered C (C.ecrecover sighash (head ++ fit32 pk)) := by
  unfold recoverPlain
  by_cases hbig : 256 ≤ vb.natAbs
  · exact .inl ⟨_, fun pk => if_pos hbig⟩
  by_cases hvalid : validateSignatureValues C.cryptoType
      (UInt64.ofNat vb.natAbs - 27).toUInt8 r s homestead = false
  · exact .inl ⟨.invalidSig, fun pk => by rw [if_neg hbig]; exact if_pos hvalid⟩
  simp only [if_neg hbig, if_neg hvalid]
  cases hbuf : signatureBuffer signatureLength r s
      (UInt64.ofNat vb.natAbs - 27).toUInt8 with
  | error err => exact .inl ⟨err, fun pk => rfl⟩
  | ok sig =>
    obtain ⟨head, hlen, rfl⟩ := signatureBuffer_eq_ok (k := 32) hbuf
    refine .inr ⟨head, hlen, fun pk => ?_⟩
    simp only [copyTo_tail hlen]
    cases C.ecrecover sighash (head ++ fit32 pk) <;> rfl

theorem addressOfRecovered_sm2 (hC : C.cryptoType = .sm2Sm3Sm4) {hash head tail : Bytes}
    {a : Address} (hlen : head.length = 65)
    (h : addressOfRecovered C (C.ecrecover hash (head ++ tail)) = .ok a) :
    ∃ pub, C.pubkeyToAddress pub = a ∧ C.calculateE pub hash = setBytes tail := by
  cases hrec : C.ecrecover hash (head ++ tail) with
  | error err =>
    rw [hrec] at h
    cases h
  | ok key =>
    obtain ⟨pub, rfl, he⟩ := ecrecover_sm2_eq_ok hC hlen hrec
    rw [hrec, addressOfRecovered] at h
    split at h
    case isTrue => cases h
    case isFalse => exact ⟨pub, Except.ok.inj h, he⟩

variable {sighash : Hash} {r s : Nat} {vb : Int} {homestead : Bool}

theorem recoverPlain_ecc (hC : C.cryptoType = .eccSh3Aes) (pk pk' : Bytes) :
    recoverPlain C sighash r s vb homestead pk = recoverPlain C sighash r s vb homestead pk' := by
  rcases recoverPlain_cases C sighash r s vb homestead with ⟨err, herr⟩ | ⟨head, hlen, hhead⟩
  · rw [herr, herr]
  · rw [hhead, hhead, ecrecover_ecc hC hlen]

theorem recoverPlain_fit32 {pk pk' : Bytes} (h : fit32 pk = fit32 pk') :
    recoverPlain C sighash r s vb homestead pk = recoverPlain C sighash r s vb homestead pk' := by
  rcases recoverPlain_cases C sighash r s vb homestead with ⟨err, herr⟩ | ⟨head, -, hhead⟩
  · rw [herr, herr]
  · rw [hhead, hhead, h]

/-- Two public keys with one address. -/
def AddressCollision (C : Crypto PrivateKey PublicKey) (a : Address) : Prop :=
  ∃ pub pub', pub ≠ pub' ∧ C.pubkeyToAddress pub = a ∧ C.pubkeyToAddress pub' = a

theorem recoverPlain_sm2 (hC : C.cryptoType = .sm2Sm3Sm4) {pk pk' : Bytes} {a : Address}
    (h : recoverPlain C sighash r s vb homestead pk = .ok a)
    (h' : recoverPlain C sighash r s vb homestead pk' = .ok a) :
    fit32 pk = fit32 pk' ∨ AddressCollision C a := by
  rcases recoverPlain_cases C sighash r s vb homestead with ⟨err, herr⟩ | ⟨head, hlen, hhead⟩
  · rw [herr] at h
    cases h
  · rw [hhead] at h h'
    obtain ⟨pub, hpub, he⟩ := addressOfRecovered_sm2 hC hlen h
    obtain ⟨pub', hpub', he'⟩ := addressOfRecovered_sm2 hC hlen h'
    by_cases heq : pub = pub'
    · refine .inl (setBytes_inj (by rw [length_fit32, length_fit32]) ?_)
      rw [← he, ← he', heq]
    · exact .inr ⟨pub, pub', heq, hpub, hpub'⟩

theorem sender_cases [HashFns] (C : Crypto PrivateKey PublicKey) (signer : Signer)
    (tx : Transaction) :
    (∃ err, ∀ pk, signer.sender C { tx with pk } = .error err) ∨
      ∃ sighash vb homestead, ∀ pk, signer.sender C { tx with pk } =
        recoverPlain C sighash tx.r tx.s vb homestead pk := by
  cases signer with
  | frontier => exact .inr ⟨Signer.hash .frontier tx, tx.v, false, fun pk => rfl⟩
  | homestead => exact .inr ⟨Signer.hash .homestead tx, tx.v, true, fun pk => rfl⟩
  | eip155 chainId =>
    by_cases hprotected : isProtectedV tx.v = false
    · exact .inr ⟨Signer.hash .homestead tx, tx.v, true, fun pk => if_pos hprotected⟩
    by_cases hchain : deriveChainId tx.v ≠ chainId
    · exact .inl ⟨_, fun pk => (if_neg hprotected).trans (if_pos hchain)⟩
    · exact .inr ⟨Signer.hash (.eip155 chainId) tx, (tx.v : Int) - 2 * chainId - 8, true,
        fun pk => (if_neg hprotected).trans (if_neg hchain)⟩

theorem fit32_inj {b b' : Bytes} (hlen : b.length = b'.length) (h32 : b.length ≤ 32)
    (h : fit32 b = fit32 b') : b = b' := by
  rw [fit32, fit32, List.take_of_length_le h32, List.take_of_length_le (hlen ▸ h32)]
    at h
  exact (List.append_inj h hlen).1

/-- **Which values of `PK` keep the sender.** With secp256k1 every value does. In SM2 it is the
values with the same first 32 bytes, filled up with zeros, unless two keys share the address;
so a value of the same length, if that is at most 32, leaves the encoding as it was. -/
theorem sender_determines_pk [HashFns] (C : Crypto PrivateKey PublicKey) (signer : Signer)
    (tx : Transaction) (pk : Bytes) (a : Address) (haccept : signer.sender C tx = .ok a) :
    (C.cryptoType = .eccSh3Aes → signer.sender C { tx with pk } = .ok a) ∧
    (Crypto.fit32 pk = Crypto.fit32 tx.pk → signer.sender C { tx with pk } = .ok a) ∧
    (C.cryptoType = .sm2Sm3Sm4 → signer.sender C { tx with pk } = .ok a → ¬AddressCollision C a →
      Crypto.fit32 pk = Crypto.fit32 tx.pk ∧ (pk.length = tx.pk.length → pk.length ≤ 32 →
          ({ tx with pk } : Transaction).encodeRLP = tx.encodeRLP)) := by
  have hself : signer.sender C { tx with pk := tx.pk } = .ok a := haccept
  rcases sender_cases C signer tx with ⟨err, herr⟩ | ⟨sighash, vb, homestead, hplain⟩
  · rw [herr] at hself
    cases hself
  · rw [hplain] at hself
    rw [hplain]
    refine ⟨fun hC => (recoverPlain_ecc hC pk tx.pk).trans hself,
      fun hfit => (recoverPlain_fit32 hfit).trans hself, fun hC hpk hcoll => ?_⟩
    have hfit := (recoverPlain_sm2 hC hpk hself).resolve_right hcoll
    refine ⟨hfit, fun hlen h32 => ?_⟩
    rw [fit32_inj hlen h32 hfit]

/-! ## The original of a signed transaction -/

/-- A transaction in memory, with the hash that `Hash` keeps. -/
structure TxObject where
  data : Transaction
  hashCache : Option Hash

theorem encodeRLP_pk_iff {tx : Transaction} (hamount : 0 ≤ tx.amount)
    (hlen : tx.encodeRLP.length < Rlp.sizeBound) (pk : Bytes) :
    ({ tx with pk } : Transaction).encodeRLP = tx.encodeRLP ↔ pk = tx.pk := by
  refine ⟨fun heq => ?_, by rintro rfl; rfl⟩
  have hpos := Int.not_lt.mpr hamount
  have hlen' := heq ▸ hlen
  simp only [Transaction.encodeRLP, if_neg hpos] at heq hlen hlen'
  have hflat := Rlp.encodeList_inj ((Rlp.length_encodeList _).trans hlen')
    ((Rlp.length_encodeList _).trans hlen) heq
  have hsize := (Rlp.length_encodeList tx.rlpFields).trans hlen
  simp only [Transaction.rlpFields, Transaction.hexBytes, List.flatten_append,
    List.append_cancel_left_eq, List.flatten_cons, List.flatten_nil, List.length_append]
    at hflat hsize
  have hbound : (Rlp.encodeString pk ++ []).length < Rlp.sizeBound := by
    rw [hflat, List.length_append]
    omega
  exact (Rlp.encodeString_append_inj hbound hflat).1

namespace TxObject

def hash [HashFns] (o : TxObject) : Hash × TxObject :=
  match o.hashCache with
  | some h => (h, o)
  | none => (o.data.hash, { o with hashCache := some o.data.hash })

/-- `WithSignature`: the original as it is left, and the signed copy. -/
def withSignature (o : TxObject) (signer : Signer) (sig : Bytes) :
    Except SignError (TxObject × TxObject) :=
  match signer.signatureValues o.data sig with
  | .error err => .error err
  | .ok (data, r, s, v) => .ok ({ o with data }, ⟨{ data with r, s, v }, none⟩)

def signTx [HashFns] (C : Crypto PrivateKey PublicKey) (o : TxObject) (signer : Signer)
    (prv : PrivateKey) : Except SignError (TxObject × TxObject) :=
  match C.sign (signer.hash o.data) prv with
  | .error err => .error err
  | .ok sig => o.withSignature signer sig

variable {signer : Signer} {sig : Bytes} {o o' cpy : TxObject}

theorem withSignature_spec (h : o.withSignature signer sig = .ok (o', cpy)) :
    (∃ r s v pk, cpy = ⟨{ o.data with r, s, v, pk }, none⟩) ∧
      ∃ pk, o' = ⟨{ o.data with pk }, o.hashCache⟩ ∧
        (pk = o.data.pk ↔ ∀ chainId, signer = .eip155 chainId → o.data.pk = sig.drop 65) := by
  unfold withSignature Signer.signatureValues at h
  cases hv : Signer.frontierSignatureValues sig with
  | error err => cases signer <;> simp [hv, Except.map] at h
  | ok values =>
    obtain ⟨r, s, v⟩ := values
    obtain ⟨data, cache⟩ := o
    cases signer with
    | frontier | homestead =>
      simp only [hv, Except.map] at h
      cases h
      exact ⟨⟨r, s, v, data.pk, rfl⟩, data.pk, rfl, by simp⟩
    | eip155 chainId =>
      simp only [hv] at h
      cases h
      refine ⟨⟨_, _, _, _, rfl⟩, sig.drop 65, rfl, fun hpk _ _ => hpk.symm, fun hpk => ?_⟩
      exact (hpk chainId rfl).symm

/-- **What signing does to the original.** The signed copy differs in `V`, `R`, `S` and `PK`.
The original, and so its encoding and hash, stays as it is exactly if the signer is not the
EIP155 one or the rest of the signature is its `PK` already; a hash that was kept stays. -/
theorem withSignature_frame [HashFns] (C : Crypto PrivateKey PublicKey) (signer : Signer)
    (sig : Bytes) (o o' cpy : TxObject)
    (h : o.withSignature signer sig = .ok (o', cpy) ∨
      ∃ prv, C.sign (signer.hash o.data) prv = .ok sig ∧ o.signTx C signer prv = .ok (o', cpy)) :
    (∃ r s v pk, cpy = ⟨{ o.data with r, s, v, pk }, none⟩) ∧
      (o' = o ↔ ∀ chainId, signer = .eip155 chainId → o.data.pk = sig.drop 65) ∧
      (0 ≤ o.data.amount → o.data.encodeRLP.length < Rlp.sizeBound →
        (o'.data.encodeRLP = o.data.encodeRLP ↔
          ∀ chainId, signer = .eip155 chainId → o.data.pk = sig.drop 65) ∧
        (Set.InjOn HashFns.keccak256 {o'.data.encodeRLP, o.data.encodeRLP} →
          (o'.data.hash = o.data.hash ↔
            ∀ chainId, signer = .eip155 chainId → o.data.pk = sig.drop 65))) ∧
      (o.hashCache.isSome → o'.hash.1 = o.hash.1) := by
  have hsig : o.withSignature signer sig = .ok (o', cpy) := by
    rcases h with h | ⟨prv, hsign, h⟩
    · exact h
    · rwa [signTx, hsign] at h
  obtain ⟨hcopy, pk, rfl, hpk⟩ := withSignature_spec hsig
  refine ⟨hcopy, ?_, fun hamount hlen => ?_, fun hsome => ?_⟩
  · rw [← hpk]
    exact ⟨fun heq => congrArg (fun o => o.data.pk) heq, by rintro rfl; rfl⟩
  · have henc := encodeRLP_pk_iff hamount hlen pk
    rw [← hpk]
    refine ⟨henc, fun hinj => ⟨fun hhash => ?_, by rintro rfl; rfl⟩⟩
    exact henc.mp (hinj (Or.inl rfl) (Or.inr rfl) hhash)
  · obtain ⟨k, hk⟩ := Option.isSome_iff_exists.mp hsome
    simp [hash, hk]

end TxObject

section Runs

attribute [local instance] HashFns.sha

theorem not_addressCollision_plain (cryptoType : CryptoType) (a : Address) :
    ¬AddressCollision (plain cryptoType) a := by
  rintro ⟨pub, pub', hne, hpub, hpub'⟩
  have hlast : ∀ key : UInt8, (plain cryptoType).pubkeyToAddress key =
      List.replicate 19 0 ++ [key] := fun key => rfl
  rw [← hpub', hlast, hlast] at hpub
  exact hne (by simpa using hpub)

/-- The transfer signed with the key 5 of secp256k1. -/
def signedSpendEcc : Transaction :=
  { spend [10] with r := 6, s := 1, v := 27, pk := List.replicate 32 0 }

theorem sender_determines_pk_spend :
    Signer.sender (Crypto.plain .eccSh3Aes) .homestead { signedSpendEcc with pk := [1] } =
        .ok (List.replicate 19 0 ++ [5]) ∧
      Signer.sender (Crypto.plain .sm2Sm3Sm4) (.eip155 7)
        { signedSpend with pk := Crypto.word 12 ++ [1] } = .ok (List.replicate 19 0 ++ [5]) ∧
      ({ signedSpend with pk := Crypto.word 12 } : Transaction).encodeRLP =
        signedSpend.encodeRLP := by
  have hecc := sender_determines_pk (plain .eccSh3Aes) .homestead signedSpendEcc [1]
    (List.replicate 19 0 ++ [5]) (by decide +kernel)
  have hsm2 : Signer.sender (plain .sm2Sm3Sm4) (.eip155 7) signedSpend =
      .ok (List.replicate 19 0 ++ [5]) := by decide +kernel
  have hlonger := sender_determines_pk _ _ _ (word 12 ++ [1]) _ hsm2
  have hsame := sender_determines_pk _ _ _ (word 12) _ hsm2
  exact ⟨hecc.1 rfl, hlonger.2.1 (by decide),
    (hsame.2.2 rfl hsm2 (not_addressCollision_plain _ _)).2 rfl (by decide)⟩

/-- Other encodings of signed transfers with the same sender: with secp256k1 any other `PK`
under each signer, in SM2 a longer one. -/
theorem sender_accepts_second_identity :
    Signer.sender (Crypto.plain .eccSh3Aes) .frontier signedSpendEcc =
        .ok (List.replicate 19 0 ++ [5]) ∧
      Signer.sender (Crypto.plain .eccSh3Aes) .frontier { signedSpendEcc with pk := [1] } =
        .ok (List.replicate 19 0 ++ [5]) ∧
      Signer.sender (Crypto.plain .eccSh3Aes) .homestead signedSpendEcc =
        .ok (List.replicate 19 0 ++ [5]) ∧
      Signer.sender (Crypto.plain .eccSh3Aes) .homestead { signedSpendEcc with pk := [1] } =
        .ok (List.replicate 19 0 ++ [5]) ∧
      signedSpendEcc.encodeRLP ≠ ({ signedSpendEcc with pk := [1] } : Transaction).encodeRLP ∧
      Signer.sender (Crypto.plain .sm2Sm3Sm4) (.eip155 7) signedSpend =
        .ok (List.replicate 19 0 ++ [5]) ∧
      Signer.sender (Crypto.plain .sm2Sm3Sm4) (.eip155 7)
        { signedSpend with pk := Crypto.word 12 ++ [1] } = .ok (List.replicate 19 0 ++ [5]) ∧
      signedSpend.encodeRLP ≠
        ({ signedSpend with pk := Crypto.word 12 ++ [1] } : Transaction).encodeRLP := by
  refine ⟨?_, ?_, ?_, ?_, ?_, ?_, ?_, ?_⟩ <;> decide +kernel

namespace TxObject

/-- The signature of the key 5 on the transfer in SM2. -/
def spendSignature : Bytes := word 6 ++ word 1 ++ [1] ++ word 12

theorem withSignature_frame_spend : ∃ o' cpy,
    withSignature ⟨spend [10], none⟩ .homestead spendSignature = .ok (o', cpy) ∧
      o' = ⟨spend [10], none⟩ :=
  ⟨_, _, rfl, (withSignature_frame (plain .sm2Sm3Sm4) .homestead spendSignature _ _ _
    (Or.inl rfl)).2.1.mpr nofun⟩

/-- `SignTx` with the EIP155 signer writes to the transaction that it is given: its encoding
and its hash change, and a hash that was kept does not fit any more. -/
theorem signTx_changes_original :
    (∃ o' cpy, signTx (Crypto.plain .sm2Sm3Sm4) ⟨spend [10], none⟩ (.eip155 7) 5 = .ok (o', cpy) ∧
      withSignature ⟨spend [10], none⟩ (.eip155 7) spendSignature = .ok (o', cpy) ∧
      o'.data.encodeRLP ≠ (spend [10]).encodeRLP ∧ o'.hash.1 ≠ (spend [10]).hash) ∧
    ∃ o' cpy, signTx (Crypto.plain .sm2Sm3Sm4) ⟨spend [10], some (spend [10]).hash⟩ (.eip155 7) 5 =
      .ok (o', cpy) ∧ o'.hash.1 ≠ o'.data.hash := by
  have hchange : ({ spend [10] with pk := word 12 } : Transaction).encodeRLP ≠
      (spend [10]).encodeRLP := by decide +kernel
  have hhash : ({ spend [10] with pk := word 12 } : Transaction).hash ≠
      (spend [10]).hash := by decide +kernel
  refine ⟨⟨⟨{ spend [10] with pk := word 12 }, none⟩, _, rfl, rfl, hchange, hhash⟩, ?_⟩
  exact ⟨⟨{ spend [10] with pk := word 12 }, some (spend [10]).hash⟩, _, rfl, hhash.symm⟩

end TxObject

end Runs

end GethComments
