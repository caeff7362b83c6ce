import GethComments.Crypto.ZkpTranscripts

/-!
# What format and balance proofs prove

Two accepted proofs with the same first messages, under challenges whose difference is invertible
modulo `P - 1`, give openings of the commitments.

* `extracts`: both proofs; the exponents solve the differences of the responses.
-/

namespace GethComments.Zkp

open Schnorr

variable {pub : PublicKey}

theorem pow_eq_pow_of_mul_modEq (hk : pub.Valid) {g : Nat} (hg : (g : ZMod pub.p) ≠ 0) {d e : Int}
    {a b : Nat} (hd : IsCoprime d (pub.p - 1 : Nat)) (ha : d * a ≡ e [ZMOD (pub.p - 1 : Nat)])
    (hb : d * b ≡ e [ZMOD (pub.p - 1 : Nat)]) : (g : ZMod pub.p) ^ a = (g : ZMod pub.p) ^ b := by
  refine pow_eq_pow_of_modEq (hk.pow_p1 hg) (Int.natCast_modEq_iff.mp ?_)
  have hdvd := Int.modEq_iff_dvd.mp (ha.trans hb.symm)
  rw [← mul_sub] at hdvd
  exact Int.modEq_iff_dvd.mpr (hd.symm.dvd_of_dvd_mul_left hdvd)

theorem balanceT_extracts (hk : pub.Valid) {cm : Bytes} (hcm : (setBytes cm : ZMod pub.p) ≠ 0)
    {c c' s z s' z' : Nat}
    (h : balanceT pub (setBytes cm) c s z = balanceT pub (setBytes cm) c' s' z')
    (hinv : IsCoprime ((c : Int) - c') (pub.p - 1 : Nat)) :
    ∃ v r : Nat, ((c : Int) - c') * v ≡ s' - s [ZMOD (pub.p - 1 : Nat)] ∧
      ((c : Int) - c') * r ≡ z' - z [ZMOD (pub.p - 1 : Nat)] ∧
      (setBytes cm : ZMod pub.p) = (pub.g1 : ZMod pub.p) ^ v * (pub.h : ZMod pub.p) ^ r := by
  have : Fact pub.p.Prime := ⟨hk.prime⟩
  have heq := congrArg (Nat.cast (R := ZMod pub.p)) h
  rw [natCast_balanceT, natCast_balanceT, mul_comm, mul_comm _ (_ ^ c')] at heq
  exact exists_exponents_of_two_residues hk.g1 hk.h hcm heq rfl hinv

/-- **What format and balance proofs prove.** From two accepted proofs with the same first messages
and challenges whose difference is invertible modulo `P - 1`, exponents are computed that open the
three commitments, the output to the sum of the values, and the cyphertext. -/
theorem extracts (pub : PublicKey) (hk : pub.Valid) (sum256 sum256' : Bytes → Bytes) :
    (∀ (cmR cmS cmO : Bytes) (bp bp' : BalanceProof) (d : Int), (setBytes cmR : ZMod pub.p) ≠ 0 →
      (setBytes cmS : ZMod pub.p) ≠ 0 → (setBytes cmO : ZMod pub.p) ≠ 0 →
      verifyBalanceProof sum256 cmR cmS cmO pub bp = true →
      verifyBalanceProof sum256' cmR cmS cmO pub bp' = true →
      balanceMessages cmR cmS cmO pub bp = balanceMessages cmR cmS cmO pub bp' →
      d = setBytes bp.c - setBytes bp'.c → IsCoprime d (pub.p - 1 : Nat) →
      ∃ vR rR vS rS rO : Nat, d * vR ≡ setBytes bp'.rV - setBytes bp.rV [ZMOD (pub.p - 1 : Nat)] ∧
        d * rR ≡ setBytes bp'.rR - setBytes bp.rR [ZMOD (pub.p - 1 : Nat)] ∧
        d * vS ≡ setBytes bp'.sV - setBytes bp.sV [ZMOD (pub.p - 1 : Nat)] ∧
        d * rS ≡ setBytes bp'.sR - setBytes bp.sR [ZMOD (pub.p - 1 : Nat)] ∧
        d * rO ≡ setBytes bp'.sOr - setBytes bp.sOr [ZMOD (pub.p - 1 : Nat)] ∧
        (setBytes cmR : ZMod pub.p) = (pub.g1 : ZMod pub.p) ^ vR * (pub.h : ZMod pub.p) ^ rR ∧
        (setBytes cmS : ZMod pub.p) = (pub.g1 : ZMod pub.p) ^ vS * (pub.h : ZMod pub.p) ^ rS ∧
        (setBytes cmO : ZMod pub.p) =
          (pub.g1 : ZMod pub.p) ^ (vR + vS) * (pub.h : ZMod pub.p) ^ rO) ∧
    ∀ (C : CypherText) (fp fp' : FormatProof) (d : Int), (setBytes C.c1 : ZMod pub.p) ≠ 0 →
      (setBytes C.c2 : ZMod pub.p) ≠ 0 → verifyFormatProof sum256 C pub fp = true →
      verifyFormatProof sum256' C pub fp' = true →
      formatMessages C pub fp = formatMessages C pub fp' →
      d = setBytes fp.c - setBytes fp'.c → IsCoprime d (pub.p - 1 : Nat) →
      ∃ v r : Nat, d * v ≡ setBytes fp'.z1 - setBytes fp.z1 [ZMOD (pub.p - 1 : Nat)] ∧
        d * r ≡ setBytes fp'.z2 - setBytes fp.z2 [ZMOD (pub.p - 1 : Nat)] ∧
        (setBytes C.c2 : ZMod pub.p) = (pub.g1 : ZMod pub.p) ^ v * (pub.h : ZMod pub.p) ^ r ∧
        (setBytes C.c1 : ZMod pub.p) = (pub.g2 : ZMod pub.p) ^ r := by
  have : Fact pub.p.Prime := ⟨hk.prime⟩
  constructor
  · rintro cmR cmS cmO bp bp' _ hR hS hO - - hts rfl hinv
    simp only [balanceMessages, List.cons.injEq, and_true] at hts
    obtain ⟨vR, rR, hvR, hrR, hcmR⟩ := balanceT_extracts hk hR hts.1 hinv
    obtain ⟨vS, rS, hvS, hrS, hcmS⟩ := balanceT_extracts hk hS hts.2.1 hinv
    obtain ⟨vO, rO, hvO, hrO, hcmO⟩ := balanceT_extracts hk hO hts.2.2 hinv
    refine ⟨vR, rR, vS, rS, rO, hvR, hrR, hvS, hrS, hrO, hcmR, hcmS, ?_⟩
    -- the exponent of the output and the sum solve the same congruence
    have hsum := hvR.add hvS
    rw [← mul_add] at hsum
    push_cast at hvO
    rw [hcmO, pow_eq_pow_of_mul_modEq hk hk.g1 hinv hvO (b := vR + vS) ?_]
    push_cast
    exact hsum.trans (by ring_nf; rfl)
  · rintro C fp fp' _ hc1 hc2 - - hts rfl hinv
    simp only [formatMessages, List.cons.injEq, and_true] at hts
    have ht1 := congrArg (Nat.cast (R := ZMod pub.p)) hts.1
    have ht2 := congrArg (Nat.cast (R := ZMod pub.p)) hts.2
    rw [natCast_formatT1, natCast_formatT1, mul_assoc, mul_assoc] at ht1
    rw [natCast_formatT2, natCast_formatT2] at ht2
    obtain ⟨v, r, hv, hr, hC2⟩ := exists_exponents_of_two_residues hk.g1 hk.h hc2 ht1 rfl hinv
    obtain ⟨r', _, hr', -, hC1⟩ := exists_exponents_of_two_residues (h := 1) (z := 0) (w := 0)
      hk.g2 one_ne_zero hc1 (by simpa using ht2) rfl hinv
    refine ⟨v, r, hv, hr, hC2, ?_⟩
    rw [hC1, one_pow, mul_one, pow_eq_pow_of_mul_modEq hk hk.g2 hinv hr' hr]

/-- Honest proofs of 3 + 4 = 7 for the challenges 1 and 2, from the same nonces. -/
theorem extracts_key23 : ∃ vR rR vS rS rO : Nat, (11 : ZMod 23) = 5 ^ vR * 10 ^ rR ∧
    (7 : ZMod 23) = 5 ^ vS * 10 ^ rS ∧ (10 : ZMod 23) = 5 ^ (vR + vS) * 10 ^ rO := by
  obtain ⟨vR, rR, vS, rS, rO, -, -, -, -, -, hs⟩ := (extracts key23 key23_valid (constantHash 1)
    (constantHash 2)).1 [11] [7] [10]
    (generateBalanceProof (constantHash 1) key23 3 4 7 [2] [5] [6] 1 2 3 4 5)
    (generateBalanceProof (constantHash 2) key23 3 4 7 [2] [5] [6] 1 2 3 4 5) (-1)
    (by decide) (by decide) (by decide) (by decide)
    (by decide) (by decide) (by decide) isCoprime_one_left.neg_left
  exact ⟨vR, rR, vS, rS, rO, hs⟩

end GethComments.Zkp
