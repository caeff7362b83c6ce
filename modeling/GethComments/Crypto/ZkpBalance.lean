import GethComments.Crypto.ZkpGroup

/-!
# What the balance of a transfer amounts to

A transfer shows two format proofs and one balance proof. The balance proof
constrains the exponents of `G1` and nothing bounds them, so the proofs of
honest residues are accepted exactly when the values balance modulo the order
of `G1`.

* `transferAccepted_iff`: the three checks come down to one transcript.
* `verifyBalanceProof_generate`: an honest balance proof verifies under any hash.
* `transferAccepted_forall_iff`: acceptance under every hash and all nonces.
-/

namespace GethComments.Zkp

open Schnorr

/-- The nonces of the two format proofs and of the balance proof. -/
structure TransferNonces where
  aS : Nat
  bS : Nat
  aR : Nat
  bR : Nat
  a : Nat
  b : Nat
  d : Nat
  e : Nat
  f : Nat
  deriving DecidableEq, Repr

section Transfer

variable (sum256 : Bytes → Bytes) (pub : PublicKey) (vR vS vO rR rS rO : Nat) (n : TransferNonces)

/-- The format proofs for `(G2^rS, CmS)` and `(G2^rR, CmR)` and the balance proof
for `CmR`, `CmS`, `CmO`, generated from the residues, are all accepted. -/
def transferAccepted : Bool :=
  verifyFormatProof sum256 (cypherOf pub vS rS) pub
      (generateFormatProof sum256 pub vS (bytes rS) n.aS n.bS) &&
    verifyFormatProof sum256 (cypherOf pub vR rR) pub
      (generateFormatProof sum256 pub vR (bytes rR) n.aR n.bR) &&
    verifyBalanceProof sum256 (commit pub vR (bytes rR)).commitment
      (commit pub vS (bytes rS)).commitment (commit pub vO (bytes rO)).commitment pub
      (generateBalanceProof sum256 pub vR vS vO (bytes rR) (bytes rS) (bytes rO)
        n.a n.b n.d n.e n.f)

/-- The bytes of the first two messages of the balance proof. -/
def TransferNonces.head : Bytes :=
  bytes (exp pub.g1 n.a pub.p * exp pub.h n.b pub.p % pub.p) ++
    bytes (exp pub.g1 n.d pub.p * exp pub.h n.e pub.p % pub.p)

/-- The challenge of the balance proof. -/
def TransferNonces.challenge : Nat :=
  Zkp.challenge sum256 pub.p (n.head pub ++ bytes (balanceT3 pub n.a n.d n.f))

variable {pub vR vS vO}

/-- Acceptance only asks that the challenge is that of the transcript with the
third message as the verifier computes it. -/
theorem transferAccepted_iff (hk : pub.Valid) (hR : vR < pub.p) (hS : vS < pub.p) :
    transferAccepted sum256 pub vR vS vO rR rS rO n = true ↔
      n.challenge sum256 pub = Zkp.challenge sum256 pub.p (n.head pub ++
        bytes (balanceT3V pub vR vS vO rO n.a n.d n.f (n.challenge sum256 pub))) := by
  have hbal : verifyBalanceProof sum256 (commit pub vR (bytes rR)).commitment
      (commit pub vS (bytes rS)).commitment (commit pub vO (bytes rO)).commitment pub
      (generateBalanceProof sum256 pub vR vS vO (bytes rR) (bytes rS) (bytes rO)
        n.a n.b n.d n.e n.f) = true ↔
      n.challenge sum256 pub = Zkp.challenge sum256 pub.p (n.head pub ++
        bytes (balanceT3V pub vR vS vO rO n.a n.d n.f (n.challenge sum256 pub))) := by
    simp only [verifyBalanceProof, generateBalanceProof, setBytes_bytes, balanceT_honest hk hR,
      balanceT_honest hk hS, TransferNonces.challenge, TransferNonces.head, balanceT3, balanceT3V,
      decide_eq_true_eq]
  rw [transferAccepted, verifyFormatProof_generate sum256 hk hS,
    verifyFormatProof_generate sum256 hk hR, Bool.true_and, Bool.true_and, hbal]

/-- Balanced values are accepted whatever the challenge. -/
theorem transferAccepted_of_modEq (hk : pub.Valid) (hR : vR < pub.p) (hS : vS < pub.p)
    (hO : vO < pub.p) (h : vR + vS ≡ vO [MOD orderOf (pub.g1 : ZMod pub.p)]) :
    transferAccepted sum256 pub vR vS vO rR rS rO n = true := by
  rw [transferAccepted_iff sum256 rR rS rO n hk hR hS,
    (balanceT3_eq_iff hk hO vR vS rO n.a n.d n.f _).mpr (h.mul_left _)]
  rfl

end Transfer

/-- Completeness of the balance proof for every hash function and all nonces, with the
spent commitment given by any bytes of the right residue. -/
theorem verifyBalanceProof_generate (sum256 : Bytes → Bytes) {pub : PublicKey} (hk : pub.Valid)
    {vR vS : Nat} (hR : vR < pub.p) (hS : vS < pub.p) {cmO rO : Bytes}
    (hO : (setBytes cmO : ZMod pub.p) =
      (pub.g1 : ZMod pub.p) ^ (vR + vS) * (pub.h : ZMod pub.p) ^ setBytes rO)
    (vO rR rS a b d e f : Nat) :
    verifyBalanceProof sum256 (commit pub vR (bytes rR)).commitment
      (commit pub vS (bytes rS)).commitment cmO pub
      (generateBalanceProof sum256 pub vR vS vO (bytes rR) (bytes rS) rO a b d e f) = true := by
  have hthird : ∀ c, balanceT pub (setBytes cmO) c
      (response (pub.p - 1) a c vR + response (pub.p - 1) d c vS)
      (response (pub.p - 1) f c (setBytes rO)) = balanceT3 pub a d f := by
    intro c
    refine natCast_eq_of_lt (balanceT_lt hk.p_pos _ _ _ _) (Nat.mod_lt _ hk.p_pos) ?_
    have hvR := pow_response_mul hk.p1_pos (hk.pow_p1 hk.g1) a c vR
    have hvS := pow_response_mul hk.p1_pos (hk.pow_p1 hk.g1) d c vS
    have hrO := pow_response_mul hk.p1_pos (hk.pow_p1 hk.h) f c (setBytes rO)
    rw [natCast_balanceT, natCast_balanceT3 hk, hO, pow_add _ a d, ← hvR, ← hvS, ← hrO]
    ring
  simp only [verifyBalanceProof, generateBalanceProof, setBytes_bytes, balanceT_honest hk hR,
    balanceT_honest hk hS, hthird, balanceT3, decide_true]

/-- A 32-byte hash that gives the challenge 1 on one transcript and 0 on all others. -/
def indicator (m : Bytes) (x : Bytes) : Bytes := List.replicate 31 0 ++ [if x = m then 1 else 0]

theorem indicator_length (m x : Bytes) : (indicator m x).length = 32 := by simp [indicator]

theorem challenge_indicator {p : Nat} (hp : 1 < p) (m x : Bytes) :
    challenge (indicator m) p x = if x = m then 1 else 0 := by
  by_cases h : x = m
  · simp [challenge, indicator, setBytes, h, Nat.ofDigits, Nat.mod_eq_of_lt hp]
  · simp [challenge, indicator, setBytes, h, Nat.ofDigits]

theorem modEq_of_transferAccepted_indicator {pub : PublicKey} (hk : pub.Valid)
    {vR vS vO : Nat} (hR : vR < pub.p) (hS : vS < pub.p) (hO : vO < pub.p) (rR rS rO : Nat)
    (n : TransferNonces)
    (h : transferAccepted (indicator (n.head pub ++ bytes (balanceT3 pub n.a n.d n.f)))
      pub vR vS vO rR rS rO n = true) :
    vR + vS ≡ vO [MOD orderOf (pub.g1 : ZMod pub.p)] := by
  rw [transferAccepted_iff _ rR rS rO n hk hR hS, challenge_indicator hk.prime.one_lt,
    TransferNonces.challenge, challenge_indicator hk.prime.one_lt, if_pos rfl] at h
  split at h
  case isTrue heq =>
    have ht := bytes_injective (List.append_cancel_left heq)
    simpa using (balanceT3_eq_iff hk hO vR vS rO n.a n.d n.f 1).mp ht
  case isFalse => omega

/-- **What the proofs of a transfer say about its values.** For a prime `P` with
unit generators and values below `P - 1`: the proofs are accepted for every
32-byte hash function and all nonces exactly when `vR + vS` and `vO` agree modulo
the order of `G1`. Under one fixed hash function, a transfer accepted for all
nonces balances modulo that order up to the factor of the challenge, unless the
hash gives the same challenge for two third messages. -/
theorem transferAccepted_forall_iff (pub : PublicKey) (hk : pub.Valid)
    (vR vS vO rR rS rO : Nat) (hR : vR ≤ pub.p - 2) (hS : vS ≤ pub.p - 2)
    (hO : vO ≤ pub.p - 2) :
    ((∀ sum256 : Bytes → Bytes, (∀ m, (sum256 m).length = 32) →
        ∀ n, transferAccepted sum256 pub vR vS vO rR rS rO n = true) ↔
      vR + vS ≡ vO [MOD orderOf (pub.g1 : ZMod pub.p)]) ∧
    ∀ sum256 : Bytes → Bytes, (∀ n, transferAccepted sum256 pub vR vS vO rR rS rO n = true) →
      ∀ n : TransferNonces, n.challenge sum256 pub * (vR + vS) ≡ n.challenge sum256 pub * vO
            [MOD orderOf (pub.g1 : ZMod pub.p)] ∨
          ∃ t < pub.p, t ≠ balanceT3 pub n.a n.d n.f ∧
            challenge sum256 pub.p (n.head pub ++ bytes t) = n.challenge sum256 pub := by
  have hp := hk.prime.two_le
  have hR' : vR < pub.p := by omega
  have hS' : vS < pub.p := by omega
  have hO' : vO < pub.p := by omega
  refine ⟨⟨fun h => ?_, fun h sum256 _ n => ?_⟩, fun sum256 h n => ?_⟩
  · exact modEq_of_transferAccepted_indicator hk hR' hS' hO' rR rS rO ⟨2, 2, 2, 2, 2, 2, 2, 2, 2⟩
      (h _ (indicator_length _) _)
  · exact transferAccepted_of_modEq sum256 rR rS rO n hk hR' hS' hO' h
  · by_cases ht : balanceT3V pub vR vS vO rO n.a n.d n.f (n.challenge sum256 pub) =
        balanceT3 pub n.a n.d n.f
    · exact Or.inl ((balanceT3_eq_iff hk hO' vR vS rO n.a n.d n.f _).mp ht)
    · have hacc := (transferAccepted_iff sum256 rR rS rO n hk hR' hS').mp (h n)
      exact Or.inr ⟨_, balanceT_lt hk.p_pos _ _ _ _, ht, hacc.symm⟩

/-- A key over the prime 23 with generators of order 22. -/
def key23 : PublicKey := ⟨5, 7, 23, 10⟩

theorem key23_valid : key23.Valid where
  prime := by decide
  g1 := by decide
  g2 := by decide
  h := by decide

theorem transferAccepted_forall_iff_key23 :
    (∀ sum256 : Bytes → Bytes, (∀ m, (sum256 m).length = 32) →
        ∀ n, transferAccepted sum256 key23 3 4 7 2 5 6 n = true) ∧
      key23.Valid := by
  have h := transferAccepted_forall_iff key23 key23_valid 3 4 7 2 5 6 (by decide) (by decide)
    (by decide)
  exact ⟨h.1.mpr rfl, key23_valid⟩

/-- Inputs worth 21 and 2 are accepted for an output worth 1, for every hash
function and all nonces. -/
theorem transferAccepted_from_nothing :
    key23.Valid ∧ (∀ v ∈ [21, 2, 1, 3, 4, 5], v ≤ key23.p - 2) ∧ 1 ≤ 262144 ∧
      (∀ sum256 n, transferAccepted sum256 key23 21 2 1 3 4 5 n = true) ∧ 21 + 2 ≠ 1 := by
  refine ⟨key23_valid, by decide, by decide, fun sum256 n => ?_, by decide⟩
  have hord : orderOf (key23.g1 : ZMod key23.p) ∣ 22 :=
    orderOf_dvd_of_pow_eq_one (key23_valid.pow_p1 key23_valid.g1)
  have hmod : 21 + 2 ≡ 1 [MOD orderOf (key23.g1 : ZMod key23.p)] :=
    Nat.ModEq.of_dvd hord (by decide)
  exact transferAccepted_of_modEq sum256 3 4 5 n key23_valid (by decide) (by decide) (by decide)
    hmod

end GethComments.Zkp
