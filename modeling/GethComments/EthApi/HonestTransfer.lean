import GethComments.Crypto.ZkpEquality
import GethComments.EthApi.ZeroTransaction
import GethComments.Types.TransactionRlp

/-!
# Honest transfers are accepted

What `toZeroTransaction` puts into the fields of the proofs is what `verifyzkp` takes out of
them, and each of the six proofs is complete.

* `toZeroTransaction_isSome`: an honest request yields a transaction;
* `toZeroTransaction_spec`: the arguments of the verifiers in it;
* `honest_transfer_accepted`: `verifyzkp` accepts it, before and after its encoding.
-/

namespace GethComments

open SendTxArgs List Option HashFns

open Zkp

/-! ## Public keys in hexadecimal -/

/-- Four numbers of 64 hexadecimal digits, the first one not zero. -/
structure WellFormedKey (pk : Bytes) : Prop where
  length : pk.length = 256
  digits : ∀ c ∈ chars pk, (Hex.nibble c).isSome = true
  modulus : setString16 (pk.take 64) ≠ some 0

theorem setString16_spec {s : Bytes} (hne : s ≠ [])
    (h : ∀ c ∈ chars s, (Hex.nibble c).isSome = true) :
    ∃ m, setString16 s = some m ∧ m < 16 ^ s.length := by
  obtain ⟨m, hm, hbound⟩ := Hex.toNat?_of_digits h
  rw [chars, length_map] at hbound
  exact ⟨m, by rw [setString16, if_neg hne, hm], hbound⟩

theorem paraPK_spec {pk : Bytes} (h : WellFormedKey pk) :
    ∃ key, paraPK pk = some key ∧ 0 < key.p ∧ key.p < 256 ^ 32 := by
  have hlen := h.length
  have hpart : ∀ i, i + 64 ≤ 256 → (pk.drop i).take 64 ≠ [] ∧
      ∀ c ∈ chars ((pk.drop i).take 64), (Hex.nibble c).isSome = true := by
    intro i hi
    refine ⟨fun hnil => ?_, fun c hc => ?_⟩
    rotate_left
    · obtain ⟨b, hb, rfl⟩ := mem_map.mp hc
      exact h.digits _ (mem_map_of_mem (mem_of_mem_drop (mem_of_mem_take hb)))
    have := congrArg length hnil
    simp only [length_take, length_drop, length_nil] at this
    omega
  have hlast : (pk.drop 192).take 64 = pk.drop 192 :=
    take_of_length_le (by rw [length_drop]; omega)
  obtain ⟨p, hp, hbound⟩ := setString16_spec (hpart 0 (by omega)).1 (hpart 0 (by omega)).2
  obtain ⟨g1, hg1, -⟩ := setString16_spec (hpart 64 (by omega)).1 (hpart 64 (by omega)).2
  obtain ⟨g2, hg2, -⟩ := setString16_spec (hpart 128 (by omega)).1 (hpart 128 (by omega)).2
  obtain ⟨h', hh', -⟩ := setString16_spec (hpart 192 (by omega)).1 (hpart 192 (by omega)).2
  rw [hlast] at hh'
  rw [drop_zero] at hp hbound
  have hzero : p ≠ 0 := by
    rintro rfl
    exact h.modulus hp
  refine ⟨⟨g1, g2, p, h'⟩, ?_, Nat.pos_of_ne_zero hzero, ?_⟩
  · simp [paraPK, hlen, hp, hg1, hg2, hh']
  · rw [length_take, hlen] at hbound
    exact lt_of_lt_of_eq hbound (by decide)

/-! ## Encryption of the blinding values -/

theorem encryptSlices_isSome {pub : PublicKey} (hpos : 0 < pub.p) (hp : pub.p < 256 ^ 32)
    (ms : List Bytes) (ks : List Nat) : ∃ c, encryptSlices pub ms ks = some c := by
  induction ms generalizing ks with
  | nil => exact ⟨_, rfl⟩
  | cons m ms ih =>
    have hc1 := pad32_eq ((exp_lt hpos pub.g2 (ks.headD 2)).trans hp)
    have hc2 := pad32_eq ((Nat.mod_lt (exp pub.h (ks.headD 2) pub.p * setBytes m)
      hpos).trans hp)
    obtain ⟨rest, hrest⟩ := ih ks.tail
    simp only [encryptSlices, hc1, hc2, hrest]
    exact ⟨_, rfl⟩

theorem encrypt_isSome {pub : PublicKey} (hpos : 0 < pub.p) (hp : pub.p < 256 ^ 32) (m : Bytes)
    (ks : List Nat) : ∃ c, encrypt pub m ks = some c :=
  encryptSlices_isSome hpos hp _ ks

/-! ## The transaction that is built -/

variable {tx : Transaction}

section Transfer

variable [HashFns]

/-- A request with all the values that the transfer is made of. -/
structure SendTxArgs.Offers (args : SendTxArgs) (vs vr : UInt64) (voR cmO rpk spk : Bytes) :
    Prop where
  vs : args.vs = some vs
  vr : args.vr = some vr
  voR : args.voR = some voR
  cmO : args.cmO = some cmO
  rpk : args.rpk = some rpk
  spk : args.spk = some spk

variable {vs vr : UInt64} {voR cmO rpk spk : Bytes} {v : Nat}

theorem toZeroTransaction_isSome {args : SendTxArgs} (hargs : args.Offers vs vr voR cmO rpk spk)
    (hrpk : WellFormedKey rpk) (hspk : WellFormedKey spk) (hnonce : args.nonce.isSome = true)
    (hgas : args.gas.isSome = true) (regulator : PublicKey) (n : ZeroNonces) :
    ∃ tx, args.toZeroTransaction regulator n = some tx := by
  obtain ⟨nonce, hnonce⟩ := isSome_iff_exists.mp hnonce
  obtain ⟨gas, hgas⟩ := isSome_iff_exists.mp hgas
  obtain ⟨rkey, hrkey, hrpos, hrlt⟩ := paraPK_spec hrpk
  obtain ⟨skey, hskey, hspos, hslt⟩ := paraPK_spec hspk
  obtain ⟨cmSR, hcmSR⟩ := encrypt_isSome hrpos hrlt
    (encryptValue regulator vs.toNat n.evS).2.1.r n.cmSR
  obtain ⟨cmRR, hcmRR⟩ := encrypt_isSome hspos hslt
    (encryptValue regulator vr.toNat n.evR).2.1.r n.cmRR
  simp only [toZeroTransaction, hargs.vs, hargs.vr, hargs.rpk, hargs.spk, hargs.voR,
    hargs.cmO, hrkey, hskey, hnonce, hgas, hcmSR, hcmRR, bind_eq_bind, bind_some]
  exact ⟨_, rfl⟩

/-- The four responses of an equality proof, as the transaction stores them. -/
def fourResponses (ep : EqualityProof) : EqualityProof :=
  ⟨[ep.s.getD 0 [], ep.s.getD 1 [], ep.s.getD 2 [], ep.s.getD 3 []], ep.t⟩

/-- The arguments of the verifiers in the transaction for a request. -/
structure ProofFields (regulator : PublicKey) (n : ZeroNonces) (vs vr : UInt64)
    (voR cmO rpk spk : Bytes) (tx : Transaction) : Prop where
  evs : tx.evs = (encryptValue regulator vs.toNat n.evS).1
  evr : tx.evr = (encryptValue regulator vr.toNat n.evR).1
  evo : tx.evo = (encryptValue regulator (vr + vs).toNat n.evO).1
  cmS : tx.cmS = (encryptValue regulator vs.toNat n.evS).2.1.commitment
  cmR : tx.cmR = (encryptValue regulator vr.toNat n.evR).2.1.commitment
  output : tx.cmO = cmO
  cmsFP : tx.cmsFP = generateFormatProof sum256 regulator vs.toNat
    (encryptValue regulator vs.toNat n.evS).2.1.r n.cmsFP.1 n.cmsFP.2
  cmrFP : tx.cmrFP = generateFormatProof sum256 regulator vr.toNat
    (encryptValue regulator vr.toNat n.evR).2.1.r n.cmrFP.1 n.cmrFP.2
  bp : tx.bp = generateBalanceProof sum256 regulator vr.toNat vs.toNat 0
    (encryptValue regulator vr.toNat n.evR).2.1.r
    (encryptValue regulator vs.toNat n.evS).2.1.r voR
    n.bp.1 n.bp.2.1 n.bp.2.2.1 n.bp.2.2.2.1 n.bp.2.2.2.2
  evoEP : tx.evoEP = fourResponses (generateEqualityProof sum256 regulator regulator
    (encryptValue regulator (vr + vs).toNat n.evO).2.1 ⟨cmO, voR⟩ (vr + vs).toNat n.evoEP)
  erpk : tx.erpk = (encryptAddress regulator (addressPk regulator rpk) n.erpk).1
  espk : tx.espk = (encryptAddress regulator (addressPk regulator spk) n.espk).1
  cmRpk : tx.cmRpk =
    (encryptAddress regulator (addressPk regulator rpk) n.cmRpk).2.commitment
  cmSpk : tx.cmSpk =
    (encryptAddress regulator (addressPk regulator spk) n.cmSpk).2.commitment
  erpkEP : tx.erpkEP = fourResponses (generateAddressEqualityProof sum256 regulator
    regulator (encryptAddress regulator (addressPk regulator rpk) n.cmRpk).2
    (encryptAddress regulator (addressPk regulator rpk) n.erpk).2
    (addressPk regulator rpk) n.erpkEP)
  espkEP : tx.espkEP = fourResponses (generateAddressEqualityProof sum256 regulator
    regulator (encryptAddress regulator (addressPk regulator spk) n.cmSpk).2
    (encryptAddress regulator (addressPk regulator spk) n.espk).2
    (addressPk regulator spk) n.espkEP)

section Spec

-- the fields are compared without a look at the proofs in them
attribute [local irreducible] Zkp.encryptValue encryptAddress generateFormatProof
  generateBalanceProof generateEqualityProof generateAddressEqualityProof

theorem toZeroTransaction_spec {args : SendTxArgs} (hargs : args.Offers vs vr voR cmO rpk spk)
    {regulator : PublicKey} {n : ZeroNonces}
    (h : args.toZeroTransaction regulator n = some tx) :
    ProofFields regulator n vs vr voR cmO rpk spk tx := by
  simp only [toZeroTransaction, hargs.vs, hargs.vr, hargs.rpk, hargs.spk, hargs.voR,
    hargs.cmO, bind_eq_bind, bind_some] at h
  obtain ⟨rkey, -, h⟩ := bind_eq_some_iff.mp h
  obtain ⟨skey, -, h⟩ := bind_eq_some_iff.mp h
  obtain ⟨cmSR, -, h⟩ := bind_eq_some_iff.mp h
  obtain ⟨cmRR, -, h⟩ := bind_eq_some_iff.mp h
  obtain ⟨nonce, -, h⟩ := bind_eq_some_iff.mp h
  obtain ⟨gas, -, h⟩ := bind_eq_some_iff.mp h
  cases h
  constructor <;> rfl

end Spec

/-! ## Completeness of the six proofs -/

variable {regulator : PublicKey}

omit [HashFns] in
theorem setBytes_int64Bytes (h : v < 2 ^ 63) : setBytes (int64Bytes v) = v := by
  rw [int64Bytes, if_pos h, setBytes_bytes]

omit [HashFns] in
theorem fourResponses_generate (sum256 : Bytes → Bytes) (C1 C2 : Commitment) (v : Bytes)
    (rbi : List Nat) :
    fourResponses (generateEqualityProofOn sum256 regulator regulator C1 C2 v rbi) =
      generateEqualityProofOn sum256 regulator regulator C1 C2 v rbi := by
  rw [generateEqualityProofOn, if_neg (not_not.mpr rfl)]
  rfl

omit [HashFns] in
theorem commit_r (v k : Nat) : (commit regulator v (bytes k)).r = bytes k := by
  simp only [commit, setBytes_bytes]

omit [HashFns] in
theorem natCast_commit_r (hv : v < regulator.p) (k : Nat) :
    (setBytes (commit regulator v (bytes k)).commitment : ZMod regulator.p) =
      (regulator.g1 : ZMod regulator.p) ^ v *
        (regulator.h : ZMod regulator.p) ^ setBytes (commit regulator v (bytes k)).r := by
  rw [natCast_commit regulator hv, commit_r, setBytes_bytes]

theorem address_equality_accepted (hk : regulator.Valid) (pk : Bytes) (k k' : Nat)
    (rbi : List Nat) :
    verifyEqualityProof sum256 regulator regulator
      (encryptAddress regulator (addressPk regulator pk) k').1
      ⟨[], (encryptAddress regulator (addressPk regulator pk) k).2.commitment⟩
      (fourResponses (generateAddressEqualityProof sum256 regulator regulator
        (encryptAddress regulator (addressPk regulator pk) k).2
        (encryptAddress regulator (addressPk regulator pk) k').2
        (addressPk regulator pk) rbi)) = true := by
  have hlt : setBytes (addressPk regulator pk) < regulator.p := by
    rw [addressPk, setBytes_bytes]
    exact Nat.mod_lt _ hk.p_pos
  rw [generateAddressEqualityProof, fourResponses_generate]
  simp only [encryptAddress]
  generalize setBytes (addressPk regulator pk) = v at hlt
  have h1 := natCast_commit_r hlt k
  have h2 := natCast_commit_r hlt k'
  generalize commit regulator v (bytes k) = C at h1
  generalize commit regulator v (bytes k') = C' at h2
  rw [← setBytes_bytes v] at h1 h2
  exact verifyEqualityProof_generate _ hk h1 h2 (Nat.mul_comm _ _) rbi

theorem output_equality_accepted (hk : regulator.Valid) (hv : v ≤ 262144) (hvp : v < regulator.p)
    (hO : (setBytes cmO : ZMod regulator.p) =
      (regulator.g1 : ZMod regulator.p) ^ v * (regulator.h : ZMod regulator.p) ^ setBytes voR)
    (k : Nat) (rbi : List Nat) :
    verifyEqualityProof sum256 regulator regulator
      (encryptValue regulator v k).1 ⟨[], cmO⟩
      (fourResponses (generateEqualityProof sum256 regulator regulator
        (encryptValue regulator v k).2.1 ⟨cmO, voR⟩ v rbi)) = true := by
  have hbytes : setBytes (int64Bytes v) = v := setBytes_int64Bytes (by omega)
  rw [generateEqualityProof, fourResponses_generate, encryptValue_cypherOf _ hv]
  refine verifyEqualityProof_generate _ hk ?_ ?_ rfl rbi
  · rw [hbytes]
    exact natCast_commit_r hvp k
  · rw [hbytes]
    exact hO

theorem ProofFields.accepted (hk : regulator.Valid) {n : ZeroNonces}
    (hfields : ProofFields regulator n vs vr voR cmO rpk spk tx)
    (hbound : vs.toNat + vr.toNat ≤ 262144) (hp : vs.toNat + vr.toNat < regulator.p)
    (hO : (setBytes cmO : ZMod regulator.p) = (regulator.g1 : ZMod regulator.p) ^
      (vs.toNat + vr.toNat) * (regulator.h : ZMod regulator.p) ^ setBytes voR) :
    verifyzkp regulator tx = none := by
  have hsum : (vr + vs).toNat = vs.toNat + vr.toNat := by
    rw [UInt64.toNat_add]
    omega
  have hs : vs.toNat ≤ 262144 := by omega
  have hr : vr.toNat ≤ 262144 := by omega
  rw [verifyzkp_eq_none_iff, CyphertextsAccepted, CommitmentsAccepted, hfields.evs, hfields.evr,
    hfields.evo, hfields.cmS, hfields.cmR, hfields.output, hfields.cmsFP, hfields.cmrFP, hfields.bp,
    hfields.evoEP, hfields.erpk, hfields.espk, hfields.cmRpk, hfields.cmSpk, hfields.erpkEP,
    hfields.espkEP]
  refine ⟨⟨?_, ?_⟩, ?_, ?_, address_equality_accepted hk rpk _ _ _,
    address_equality_accepted hk spk _ _ _⟩
  · rw [encryptValue_cypherOf _ hs, commit_r]
    exact verifyFormatProof_generate _ hk (by omega) _ _ _
  · rw [encryptValue_cypherOf _ hr, commit_r]
    exact verifyFormatProof_generate _ hk (by omega) _ _ _
  · rw [Nat.add_comm] at hO
    rw [encryptValue_cypherOf _ hs, encryptValue_cypherOf _ hr, commit_r, commit_r]
    exact verifyBalanceProof_generate _ hk (by omega) (by omega) hO _ _ _ _ _ _ _ _
  · rw [hsum]
    exact output_equality_accepted hk hbound hp hO _ _

/-- **Honest transfers are accepted.** A request to split a commitment to `vs + vr` under a
key of the regulator, with a sum of at most 262144 and below `P`, yields a transaction for
which `verifyzkp` returns nil, also once it was encoded and decoded, for every hash function and
all random choices. -/
theorem honest_transfer_accepted (regulator : Zkp.PublicKey) (hk : regulator.Valid)
    (n : ZeroNonces) (args : SendTxArgs) (vs vr : UInt64) (voR cmO rpk spk : Bytes)
    (hargs : args.Offers vs vr voR cmO rpk spk) (hnonce : args.nonce.isSome = true)
    (hgas : args.gas.isSome = true) (hrpk : WellFormedKey rpk) (hspk : WellFormedKey spk)
    (hbound : vs.toNat + vr.toNat ≤ 262144) (hp : vs.toNat + vr.toNat < regulator.p)
    (hO : setBytes cmO =
      regulator.g1 ^ (vs.toNat + vr.toNat) * regulator.h ^ setBytes voR % regulator.p) :
    ∃ tx, args.toZeroTransaction regulator n = some tx ∧ verifyzkp regulator tx = none ∧
      (tx.Encodable → ∃ decoded, Transaction.decodeBytes tx.encodeRLP = some (.ok decoded) ∧
        verifyzkp regulator decoded = none) := by
  obtain ⟨tx, htx⟩ := toZeroTransaction_isSome hargs hrpk hspk hnonce hgas regulator n
  have haccept : verifyzkp regulator tx = none :=
    (toZeroTransaction_spec hargs htx).accepted hk hbound hp (by rw [hO]; simp)
  exact ⟨tx, htx, haccept, fun henc => ⟨tx, Transaction.decodeBytes_encodeRLP henc, haccept⟩⟩

end Transfer

section Runs

attribute [local instance] HashFns.plain

theorem key23String_wellFormed : WellFormedKey key23String where
  length := by simp only [key23String, length_append, length_replicate, length_cons, length_nil]
  digits := by
    intro c hc
    obtain ⟨b, hb, rfl⟩ := mem_map.mp hc
    have hdigit : b = 48 ∨ b = 49 ∨ b = 55 ∨ b = 53 ∨ b = 97 := by
      simp only [key23String, mem_append, mem_replicate, mem_cons, not_mem_nil, or_false] at hb
      tauto
    rcases hdigit with rfl | rfl | rfl | rfl | rfl <;> decide
  modulus := by decide

theorem splitRequest_offers : splitRequest.Offers 3 4 [6] [10] key23String key23String :=
  ⟨rfl, rfl, rfl, rfl, rfl, rfl⟩

theorem encodable_of_splitRequest
    (h : splitRequest.toZeroTransaction key23 splitNonces = some tx) : tx.Encodable := by
  have hall : (splitRequest.toZeroTransaction key23 splitNonces).all (fun tx =>
      decide (0 ≤ tx.amount ∧ tx.recipient = none ∧ tx.rlpFields.flatten.length < Rlp.sizeBound)) =
      true := by
    decide +kernel
  rw [h] at hall
  obtain ⟨hamount, hto, hsize⟩ := of_decide_eq_true hall
  refine ⟨hamount, fun a ha => ?_, hsize⟩
  rw [hto] at ha
  cases ha

theorem honest_transfer_accepted_key23 :
    ∃ tx, splitRequest.toZeroTransaction Zkp.key23 splitNonces = some tx ∧
      verifyzkp Zkp.key23 tx = none ∧
      ∃ decoded, Transaction.decodeBytes tx.encodeRLP = some (.ok decoded) ∧
        verifyzkp Zkp.key23 decoded = none := by
  obtain ⟨tx, htx, haccept, hdecoded⟩ := honest_transfer_accepted key23 key23_valid
    splitNonces splitRequest 3 4 [6] [10] key23String key23String splitRequest_offers rfl rfl
    key23String_wellFormed key23String_wellFormed (by decide) (by decide) (by decide)
  exact ⟨tx, htx, haccept, hdecoded (encodable_of_splitRequest htx)⟩

/-- A request to send 23 under the key over the prime 23, with the commitment to 23. -/
def overflowRequest : SendTxArgs :=
  { splitRequest with vs := some 23, vr := some 0, cmO := some [7] }

/-- Commitments reduce the value modulo `P`, responses modulo `P - 1`. -/
theorem honest_transfer_rejected :
    Zkp.key23.Valid ∧ overflowRequest.Offers 23 0 [6] [7] key23String key23String ∧
      WellFormedKey key23String ∧ 23 + 0 ≤ 262144 ∧
      setBytes [7] = Zkp.key23.g1 ^ (23 + 0) * Zkp.key23.h ^ setBytes [6] % Zkp.key23.p ∧
      (overflowRequest.toZeroTransaction Zkp.key23 splitNonces).map
        (fun tx => (verifyzkp Zkp.key23 tx).isNone) = some false :=
  ⟨Zkp.key23_valid, ⟨rfl, rfl, rfl, rfl, rfl, rfl⟩, key23String_wellFormed, by decide,
    by decide +kernel, by decide +kernel⟩

end Runs

end GethComments
