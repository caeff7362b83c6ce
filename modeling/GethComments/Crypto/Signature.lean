import GethComments.Crypto.Zkp

/-!
# Signatures with a recoverable key

`Sign`, `Ecrecover` and `ValidateSignatureValues` of package `crypto` in its two crypto types.
A signature has 97 bytes: `R`, `S` and `V`, then in SM2 the number `e` that recovery starts
from, and 32 zero bytes with secp256k1. The arithmetic of the curves comes from outside and is
a parameter.

* `sign_spec`: what a signature consists of, and that the signer's key is recovered from it;
* `ecrecover_ecc`, `ecrecover_sm2`: what of the last 32 bytes recovery depends on.
-/

namespace GethComments

open List

/-- `CRYPTO_ECC_SH3_AES` and `CRYPTO_SM2_SM3_SM4`. -/
inductive CryptoType where
  | eccSh3Aes
  | sm2Sm3Sm4
  deriving DecidableEq, Repr

inductive SignError where
  | digestLength (n : Nat)
  | sigToPub
  | invalidSig
  | invalidChainId
  | invalidPublicKey
  /-- An error of a curve package. -/
  | curve (msg : String)
  /-- A run-time panic. -/
  | panics (msg : String)
  deriving DecidableEq, Repr

namespace SignError

def sliceBounds : SignError := panics "slice bounds out of range"

end SignError

/-- The crypto type in use and the functions of the curve packages. Signing draws random
numbers; a field stands for one outcome of the call. -/
structure Crypto (PrivateKey PublicKey : Type) where
  cryptoType : CryptoType
  /-- `crypto.Keccak256`, which is SM3 in the SM2 crypto type. -/
  keccak256 : Bytes → Bytes
  publicKey : PrivateKey → PublicKey
  fromECDSAPub : PublicKey → Bytes
  /-- `secp256k1.Sign` -/
  secpSign : Bytes → PrivateKey → Except SignError Bytes
  /-- `secp256k1.RecoverPubkey` -/
  recoverPubkey : Bytes → Bytes → Except SignError Bytes
  /-- `sm2.SignToRS`: the numbers `r`, `s` and `e`. -/
  signToRS : PrivateKey → Bytes → Except SignError (Nat × Nat × Nat)
  /-- `calculateE` with the default user id. -/
  calculateE : PublicKey → Bytes → Nat
  /-- `recoverKeyFromSignatureSM2_2` on `ee`, `r`, `s`, the message and the iteration. -/
  recoverKeyFromSignatureSM2 : Nat → Nat → Nat → Bytes → Nat → Except SignError PublicKey

namespace Crypto

/-! ## Signature values -/

def secp256k1N : Nat := 0xfffffffffffffffffffffffffffffffebaaedce6af48a03bbfd25e8cd0364141

def secp256k1halfN : Nat := secp256k1N / 2

def sm2P256N : Nat := 0xFFFFFFFEFFFFFFFFFFFFFFFFFFFFFFFF7203DF6B21C6052B53BBF40939D54123

def signatureLength : Nat := 97

def validateSignatureValues (cryptoType : CryptoType) (v : UInt8) (r s : Nat) (homestead : Bool) :
    Bool :=
  match cryptoType with
  | .eccSh3Aes =>
    if r < 1 ∨ s < 1 then false
    else if homestead = true ∧ s > secp256k1halfN then false
    else decide (r < secp256k1N ∧ s < secp256k1N ∧ (v = 0 ∨ v = 1))
  | .sm2Sm3Sm4 =>
    if r < 1 then false
    else if s < 1 then false
    else if homestead = true ∧ s ≥ sm2P256N then false
    else if v = 0 then false
    else true

/-! ## Buffers -/

/-- `copy(buf[i:], src)`. -/
def copyTo (buf : Bytes) (i : Nat) (src : Bytes) : Bytes :=
  buf.take i ++ src.take (buf.length - i) ++ buf.drop (i + src.length)

/-- A buffer with `r` before position 32, `s` before position 64 and `v` there. A number too
long to start inside the buffer is a run-time panic; a long `s` overwrites `r`. -/
def signatureBuffer (size r s : Nat) (v : UInt8) : Except SignError Bytes :=
  if 32 < (bytes r).length ∨ 64 < (bytes s).length then .error .sliceBounds
  else
    let sig := copyTo (replicate size 0) (32 - (bytes r).length) (bytes r)
    let sig := copyTo sig (64 - (bytes s).length) (bytes s)
    .ok (sig.set 64 v)

/-- A number of at most 32 bytes with leading zeros. -/
def word (n : Nat) : Bytes := replicate (32 - (bytes n).length) 0 ++ bytes n

/-- What `copy` leaves of a byte string in 32 zero bytes. -/
def fit32 (b : Bytes) : Bytes := b.take 32 ++ replicate (32 - b.length) 0

section Keys

variable {PrivateKey PublicKey : Type} (C : Crypto PrivateKey PublicKey)

/-! ## Signing and recovery -/

/-- `sm2.Sign`; the byte after `r` and `s` is always 1. -/
def sm2Sign (prv : PrivateKey) (digestHash : Bytes) : Except SignError (Bytes × Nat) :=
  match C.signToRS prv digestHash with
  | .error err => .error err
  | .ok (r, s, e) =>
    match signatureBuffer 65 r s 1 with
    | .error err => .error err
    | .ok sig => .ok (sig, e)

def sign (digestHash : Bytes) (prv : PrivateKey) : Except SignError Bytes :=
  match C.cryptoType with
  | .eccSh3Aes =>
    if digestHash.length ≠ 32 then .error (.digestLength digestHash.length)
    else
      match C.secpSign digestHash prv with
      | .error err => .error err
      | .ok sig => .ok (sig ++ replicate 32 0)
  | .sm2Sm3Sm4 =>
    match C.sm2Sign prv digestHash with
    | .error err => .error err
    | .ok (sig, e) =>
      match Zkp.pad32 e with
      | none => .error .sliceBounds
      | some pad => .ok (sig ++ pad)

/-- The loop of `RecoverCompactSM2`, `n` iterations from `i` on: the first candidate whose
own `e` is the given one. -/
def recoverCompactSM2 (hash : Bytes) (r s ee : Nat) : Nat → Nat → Except SignError PublicKey
  | 0, _ => .error .sigToPub
  | n + 1, i =>
    match C.recoverKeyFromSignatureSM2 ee r s hash i with
    | .ok key =>
      if C.calculateE key hash = ee then .ok key else recoverCompactSM2 hash r s ee n (i + 1)
    | .error (.panics msg) => .error (.panics msg)
    | .error _ => recoverCompactSM2 hash r s ee n (i + 1)

/-- `sm2.SigToPub` on a signature of 65 bytes. -/
def sm2SigToPub (hash sig : Bytes) (ee : Nat) : Except SignError PublicKey :=
  C.recoverCompactSM2 hash (setBytes (sig.take 32)) (setBytes ((sig.drop 32).take 32)) ee 4 0

def ecrecover (hash sig : Bytes) : Except SignError Bytes :=
  match C.cryptoType with
  | .eccSh3Aes => C.recoverPubkey hash (sig.take 65)
  | .sm2Sm3Sm4 =>
    (C.sm2SigToPub hash (sig.take 65) (setBytes (sig.drop 65))).map C.fromECDSAPub

def pubkeyToAddress (pub : PublicKey) : Bytes := (C.keccak256 (C.fromECDSAPub pub).tail).drop 12

/-! ## What is assumed of the curves -/

/-- The packages of the curves do what they are for: signatures are in range, the `e` of SM2
is the digest of the key with the message, and recovery finds the signer's key and no other. -/
structure Correct : Prop where
  uncompressed : ∀ pub, (C.fromECDSAPub pub).head? = some 4
  secp : ∀ hash prv sig, C.secpSign hash prv = .ok sig →
    ∃ r s v, sig = word r ++ word s ++ [v] ∧ 1 ≤ r ∧ r < secp256k1N ∧ 1 ≤ s ∧
      s ≤ secp256k1halfN ∧ (v = 0 ∨ v = 1) ∧
      C.recoverPubkey hash sig = .ok (C.fromECDSAPub (C.publicKey prv))
  digest : ∀ pub hash, C.calculateE pub hash < 256 ^ 32
  sm2 : ∀ prv hash r s e, C.signToRS prv hash = .ok (r, s, e) →
    1 ≤ r ∧ r < sm2P256N ∧ 1 ≤ s ∧ s < sm2P256N ∧ e = C.calculateE (C.publicKey prv) hash
  found : ∀ prv hash r s e, C.signToRS prv hash = .ok (r, s, e) →
    ∃ i < 4, C.recoverKeyFromSignatureSM2 e r s hash i = .ok (C.publicKey prv)
  unique : ∀ prv hash r s e, C.signToRS prv hash = .ok (r, s, e) → ∀ i < 4,
    (∀ msg, C.recoverKeyFromSignatureSM2 e r s hash i ≠ .error (.panics msg)) ∧
    ∀ pub, C.recoverKeyFromSignatureSM2 e r s hash i = .ok pub → C.calculateE pub hash = e →
      pub = C.publicKey prv

end Keys

/-! ## Buffers, in parts -/

variable {n i r s : Nat} {a src head sig : Bytes}

theorem length_word (h : n < 256 ^ 32) : (word n).length = 32 := by
  have hlen := length_bytes_le_iff.mpr h
  rw [word, length_append, length_replicate]
  omega

theorem setBytes_word (n : Nat) : setBytes (word n) = n := by
  rw [word, setBytes_replicate_append, setBytes_bytes]

theorem length_fit32 (b : Bytes) : (fit32 b).length = 32 := by
  rw [fit32, length_append, length_take, length_replicate]
  omega

theorem fit32_of_length {b : Bytes} (h : b.length = 32) : fit32 b = b := by
  simp [fit32, h, take_of_length_le]

theorem copyTo_append {b c : Bytes} (hi : a.length = i) (hsrc : src.length = b.length) :
    copyTo (a ++ b ++ c) i src = a ++ src ++ c := by
  subst hi
  have htake : src.take ((a ++ b ++ c).length - a.length) = src :=
    take_of_length_le (by simp only [length_append]; omega)
  have hdrop : (a ++ b ++ c).drop (a.length + src.length) = c := by
    rw [hsrc, ← length_append, drop_left]
  rw [copyTo, htake, hdrop, append_assoc a b c, take_left]

theorem copyTo_zeros {k : Nat} (hn : n < 256 ^ 32) (hi : a.length + 32 = i) :
    copyTo (a ++ replicate (32 + k) 0) (i - (bytes n).length) (bytes n) =
      a ++ word n ++ replicate k 0 := by
  have hlen := length_bytes_le_iff.mpr hn
  have hsplit : a ++ replicate (32 + k) (0 : UInt8) =
      (a ++ replicate (32 - (bytes n).length) 0) ++ replicate (bytes n).length 0 ++
        replicate k 0 := by
    rw [append_assoc, append_assoc, replicate_append_replicate,
      replicate_append_replicate]
    congr 2
    omega
  rw [hsplit, copyTo_append (by simp only [length_append, length_replicate]; omega)
    (by simp), word, append_assoc a]

theorem signatureBuffer_eq (v : UInt8) (hr : r < 256 ^ 32) (hs : s < 256 ^ 32) (k : Nat) :
    signatureBuffer (65 + k) r s v = .ok (word r ++ word s ++ [v] ++ replicate k 0) := by
  have hfits : ¬(32 < (bytes r).length ∨ 64 < (bytes s).length) := by
    have hlr := length_bytes_le_iff.mpr hr
    have hls := length_bytes_le_iff.mpr hs
    omega
  have hfirst : copyTo (replicate (65 + k) 0) (32 - (bytes r).length) (bytes r) =
      word r ++ replicate (32 + (1 + k)) 0 := by
    rw [show 65 + k = 32 + (32 + (1 + k)) by omega]
    exact copyTo_zeros (a := []) hr rfl
  have hset : (word r ++ word s ++ replicate (1 + k) 0).set 64 v =
      word r ++ word s ++ [v] ++ replicate k 0 := by
    have hlen : (word r ++ word s).length = 64 := by
      rw [length_append, length_word hr, length_word hs]
    rw [set_append_right _ _ (by omega), hlen, Nat.add_comm 1 k, replicate_succ,
      append_assoc _ [v]]
    rfl
  rw [signatureBuffer, if_neg hfits]
  simp only [hfirst, copyTo_zeros hs (show (word r).length + 32 = 64 by rw [length_word hr]), hset]

theorem take_drop_buffer (v : UInt8) (tail : Bytes) (hr : r < 256 ^ 32) (hs : s < 256 ^ 32) :
    (word r ++ word s ++ [v] ++ tail).take 65 = word r ++ word s ++ [v] ∧
      (word r ++ word s ++ [v] ++ tail).drop 65 = tail := by
  have hlen : (word r ++ word s ++ [v]).length = 65 := by
    simp only [length_append, length_word hr, length_word hs, length_singleton]
  exact ⟨List.take_left' hlen, drop_left' hlen⟩

theorem copyTo_tail {pk : Bytes} (hlen : head.length = 65) :
    copyTo (head ++ replicate 32 0) 65 pk = head ++ fit32 pk := by
  rw [copyTo, take_left' hlen, ← drop_drop, drop_left' hlen, drop_replicate,
    fit32, length_append, hlen, length_replicate, append_assoc]

theorem copyTo_append_right {c : Bytes} (h : i + src.length ≤ a.length) :
    copyTo (a ++ c) i src = copyTo a i src ++ c := by
  have htake : src.take ((a ++ c).length - i) = src.take (a.length - i) := by
    rw [take_of_length_le (by rw [length_append]; omega),
      take_of_length_le (by omega)]
  rw [copyTo, copyTo, htake, take_append_of_le_length (by omega),
    drop_append_of_le_length h, append_assoc _ _ c]

theorem length_copyTo (h : i + src.length ≤ a.length) : (copyTo a i src).length = a.length := by
  rw [copyTo, length_append, length_append, length_take, length_take,
    length_drop]
  omega

theorem signatureBuffer_eq_ok {k : Nat} {v : UInt8} (h : signatureBuffer (65 + k) r s v = .ok sig) :
    ∃ head : Bytes, head.length = 65 ∧ sig = head ++ replicate k 0 := by
  unfold signatureBuffer at h
  split at h
  case isTrue => cases h
  case isFalse hfits =>
    have hr : 32 - (bytes r).length + (bytes r).length ≤ (replicate 65 (0 : UInt8)).length := by
      rw [length_replicate]
      omega
    have hs : 64 - (bytes s).length + (bytes s).length ≤
        (copyTo (replicate 65 0) (32 - (bytes r).length) (bytes r)).length := by
      rw [length_copyTo hr, length_replicate]
      omega
    have hlen : (copyTo (copyTo (replicate 65 0) (32 - (bytes r).length) (bytes r))
        (64 - (bytes s).length) (bytes s)).length = 65 := by
      rw [length_copyTo hs, length_copyTo hr, length_replicate]
    rw [← replicate_append_replicate] at h
    simp only [copyTo_append_right hr, copyTo_append_right hs,
      set_append_left _ _ (hlen ▸ (by decide : 64 < 65))] at h
    cases h
    exact ⟨_, by rw [length_set, hlen], rfl⟩

/-! ## Recovery -/

section Recovery

variable {PrivateKey PublicKey : Type} {C : Crypto PrivateKey PublicKey}

variable {hash : Bytes} {prv : PrivateKey}

theorem recoverCompactSM2_eq_ok {ee : Nat} {pub : PublicKey}
    (h : C.recoverCompactSM2 hash r s ee n i = .ok pub) : C.calculateE pub hash = ee := by
  induction n generalizing i with
  | zero => cases h
  | succ n ih =>
    rw [recoverCompactSM2] at h
    split at h
    case h_1 key _ =>
      split at h
      case isTrue he =>
        cases h
        exact he
      case isFalse => exact ih h
    case h_2 => cases h
    case h_3 => exact ih h

theorem recoverCompactSM2_of_found {ee j : Nat} {pub : PublicKey}
    (hfound : C.recoverKeyFromSignatureSM2 ee r s hash j = .ok pub) (hij : i ≤ j) (hjn : j < i + n)
    (he : C.calculateE pub hash = ee)
    (hunique : ∀ k < i + n,
      (∀ msg, C.recoverKeyFromSignatureSM2 ee r s hash k ≠ .error (.panics msg)) ∧
      ∀ key, C.recoverKeyFromSignatureSM2 ee r s hash k = .ok key → C.calculateE key hash = ee →
        key = pub) : C.recoverCompactSM2 hash r s ee n i = .ok pub := by
  induction n generalizing i with
  | zero => omega
  | succ n ih =>
    have hnext : i ≠ j → C.recoverCompactSM2 hash r s ee n (i + 1) = .ok pub := fun hne =>
      ih (by omega) (by omega) fun k hk => hunique k (by omega)
    rw [recoverCompactSM2]
    split
    case h_1 key hkey =>
      split
      case isTrue hkeyE => rw [(hunique i (by omega)).2 key hkey hkeyE]
      case isFalse hkeyE =>
        refine hnext ?_
        rintro rfl
        rw [hfound] at hkey
        cases hkey
        exact hkeyE he
    case h_2 msg hmsg => exact absurd hmsg ((hunique i (by omega)).1 msg)
    case h_3 err _ herr =>
      refine hnext ?_
      rintro rfl
      rw [hfound] at herr
      cases herr

theorem ecrecover_ecc (hC : C.cryptoType = .eccSh3Aes) {tail tail' : Bytes}
    (hlen : head.length = 65) :
    C.ecrecover hash (head ++ tail) = C.ecrecover hash (head ++ tail') := by
  simp only [ecrecover, hC, take_left' hlen]

theorem ecrecover_sm2 (hC : C.cryptoType = .sm2Sm3Sm4) {tail tail' : Bytes}
    (hlen : head.length = 65) (h : setBytes tail = setBytes tail') :
    C.ecrecover hash (head ++ tail) = C.ecrecover hash (head ++ tail') := by
  simp only [ecrecover, hC, take_left' hlen, drop_left' hlen, h]

theorem ecrecover_sm2_eq_ok (hC : C.cryptoType = .sm2Sm3Sm4) {tail key : Bytes}
    (hlen : head.length = 65) (h : C.ecrecover hash (head ++ tail) = .ok key) :
    ∃ pub, key = C.fromECDSAPub pub ∧ C.calculateE pub hash = setBytes tail := by
  simp only [ecrecover, hC, drop_left' hlen] at h
  cases hpub : C.sm2SigToPub hash ((head ++ tail).take 65) (setBytes tail) with
  | error err =>
    rw [hpub] at h
    cases h
  | ok pub =>
    rw [hpub] at h
    cases h
    exact ⟨pub, rfl, recoverCompactSM2_eq_ok hpub⟩

theorem validateSignatureValues_frontier {cryptoType : CryptoType} {v : UInt8}
    (h : validateSignatureValues cryptoType v r s true = true) :
    validateSignatureValues cryptoType v r s false = true := by
  cases cryptoType <;> simp [validateSignatureValues] at h ⊢ <;> simp [h]

theorem lt_of_lt_order (h : n < secp256k1N ∨ n < sm2P256N) : n < 256 ^ 32 := by
  have hsecp : secp256k1N < 256 ^ 32 := by decide
  have hsm2 : sm2P256N < 256 ^ 32 := by decide
  omega

/-- The parts of a signature, and recovery of the signer's key from it. -/
structure SignatureParts (C : Crypto PrivateKey PublicKey) (hash : Bytes) (prv : PrivateKey)
    (r s : Nat) (v : UInt8) (tail : Bytes) : Prop where
  r_lt : r < 256 ^ 32
  s_lt : s < 256 ^ 32
  parity : v = 0 ∨ v = 1
  length_tail : tail.length = 32
  valid : validateSignatureValues C.cryptoType v r s true = true
  recovers : C.ecrecover hash (word r ++ word s ++ [v] ++ tail) =
    .ok (C.fromECDSAPub (C.publicKey prv))
  digest : C.cryptoType = .sm2Sm3Sm4 → setBytes tail = C.calculateE (C.publicKey prv) hash

theorem SignatureParts.length_head {v : UInt8} {tail : Bytes}
    (h : SignatureParts C hash prv r s v tail) : (word r ++ word s ++ [v]).length = 65 := by
  simp only [length_append, length_word h.r_lt, length_word h.s_lt, length_singleton]

theorem signatureParts_secp (hC : C.Correct) (htype : C.cryptoType = .eccSh3Aes)
    (h : C.secpSign hash prv = .ok sig) :
    ∃ r s v, sig = word r ++ word s ++ [v] ∧
      SignatureParts C hash prv r s v (replicate 32 0) := by
  obtain ⟨r, s, v, rfl, hr1, hrN, hs1, hsN, hv, hrec⟩ := hC.secp hash prv sig h
  have hsN' : s < secp256k1N := lt_of_le_of_lt hsN (by decide)
  have hr := lt_of_lt_order (.inl hrN)
  have hs := lt_of_lt_order (.inl hsN')
  refine ⟨r, s, v, rfl, hr, hs, hv, length_replicate, ?_, ?_, fun hsm2 => ?_⟩
  · have h1 : ¬(r < 1 ∨ s < 1) := by omega
    have h2 : ¬(true = true ∧ s > secp256k1halfN) := fun h => absurd h.2 (by omega)
    rw [htype, validateSignatureValues, if_neg h1, if_neg h2]
    exact decide_eq_true ⟨hrN, hsN', hv⟩
  · simp only [ecrecover, htype, (take_drop_buffer v _ hr hs).1, hrec]
  · rw [htype] at hsm2
    cases hsm2

theorem signatureParts_sm2 (hC : C.Correct) (htype : C.cryptoType = .sm2Sm3Sm4) {e : Nat}
    (h : C.signToRS prv hash = .ok (r, s, e)) :
    SignatureParts C hash prv r s 1 (word e) := by
  obtain ⟨hr1, hrN, hs1, hsN, he⟩ := hC.sm2 prv hash r s e h
  have hr := lt_of_lt_order (.inr hrN)
  have hs := lt_of_lt_order (.inr hsN)
  have hlt : e < 256 ^ 32 := he ▸ hC.digest _ _
  refine ⟨hr, hs, .inr rfl, length_word hlt, ?_, ?_, fun _ => by rw [setBytes_word, he]⟩
  · have h1 : ¬r < 1 := by omega
    have h2 : ¬s < 1 := by omega
    have h3 : ¬(true = true ∧ s ≥ sm2P256N) := fun h => absurd h.2 (by omega)
    rw [htype, validateSignatureValues, if_neg h1, if_neg h2, if_neg h3]
    rfl
  · obtain ⟨i, hi, hfound⟩ := hC.found prv hash r s e h
    have hloop : C.recoverCompactSM2 hash r s e 4 0 = .ok (C.publicKey prv) :=
      recoverCompactSM2_of_found hfound (Nat.zero_le i) (by omega) he.symm
        fun k hk => hC.unique prv hash r s e h k (by omega)
    have htake : (word r ++ word s ++ [1]).take 32 = word r := by
      rw [append_assoc, take_left' (length_word hr)]
    have hdrop : ((word r ++ word s ++ [1]).drop 32).take 32 = word s := by
      rw [append_assoc, drop_left' (length_word hr), take_left' (length_word hs)]
    simp only [ecrecover, htype, take_drop_buffer _ _ hr hs, sm2SigToPub, htake, hdrop,
      setBytes_word, hloop]
    rfl

theorem sign_spec (hC : C.Correct) (h : C.sign hash prv = .ok sig) :
    ∃ r s v tail, sig = word r ++ word s ++ [v] ++ tail ∧ SignatureParts C hash prv r s v tail := by
  cases htype : C.cryptoType with
  | eccSh3Aes =>
    simp only [sign, htype] at h
    split at h
    case isTrue => cases h
    case isFalse =>
      cases hsign : C.secpSign hash prv with
      | error err =>
        rw [hsign] at h
        cases h
      | ok head =>
        rw [hsign] at h
        obtain ⟨r, s, v, rfl, hparts⟩ := signatureParts_secp hC htype hsign
        cases h
        exact ⟨r, s, v, _, rfl, hparts⟩
  | sm2Sm3Sm4 =>
    simp only [sign, htype, sm2Sign] at h
    cases hsign : C.signToRS prv hash with
    | error err =>
      rw [hsign] at h
      cases h
    | ok out =>
      obtain ⟨r, s, e⟩ := out
      have hparts := signatureParts_sm2 hC htype hsign
      have hlt : e < 256 ^ 32 := (hC.sm2 prv hash r s e hsign).2.2.2.2 ▸ hC.digest _ _
      simp only [hsign, signatureBuffer_eq 1 hparts.r_lt hparts.s_lt 0, Zkp.pad32_eq hlt,
        replicate_zero, append_nil] at h
      cases h
      exact ⟨r, s, 1, word e, rfl, hparts⟩

end Recovery

/-! ## Keys to run the model with -/

/-- Keys of one byte that are their own public key; a signature shows the key in `r`. -/
def plain (cryptoType : CryptoType) : Crypto UInt8 UInt8 where
  cryptoType
  keccak256 := drop 32
  publicKey := id
  fromECDSAPub key := 4 :: (replicate 63 0 ++ [key])
  secpSign _ key := .ok (word (key.toNat + 1) ++ word 1 ++ [0])
  recoverPubkey _ sig :=
    .ok (4 :: (replicate 63 0 ++ [UInt8.ofNat (setBytes (sig.take 32) - 1)]))
  signToRS key _ := .ok (key.toNat + 1, 1, key.toNat + 7)
  calculateE key _ := key.toNat + 7
  recoverKeyFromSignatureSM2 _ r _ _ _ := .ok (UInt8.ofNat (r - 1))

theorem plain_correct (cryptoType : CryptoType) : (plain cryptoType).Correct where
  uncompressed _ := rfl
  secp hash key sig h := by
    cases h
    have hlt := key.toNat_lt
    have hr : key.toNat + 1 < 256 ^ 32 := lt_of_lt_of_le (by omega : _ < 257) (by decide)
    have hN : key.toNat + 1 < secp256k1N := lt_of_lt_of_le (by omega : _ < 257) (by decide)
    refine ⟨_, _, _, rfl, by omega, hN, le_rfl, by decide, .inl rfl, ?_⟩
    simp [plain, append_assoc, take_left' (length_word hr), setBytes_word]
  digest key hash := lt_of_lt_of_le (Nat.add_lt_add_right key.toNat_lt 7) (by decide)
  sm2 key hash r s e h := by
    cases h
    have hN : key.toNat + 1 < sm2P256N :=
      lt_of_lt_of_le (Nat.add_lt_add_right key.toNat_lt 1) (by decide)
    exact ⟨by omega, hN, le_rfl, by decide, rfl⟩
  found key hash r s e h := by
    cases h
    exact ⟨0, by decide, by simp [plain]⟩
  unique key hash r s e h i hi := by
    cases h
    constructor
    · intro msg hpanic
      cases hpanic
    · intro pub hpub _
      cases hpub
      simp [plain]

end Crypto

end GethComments
