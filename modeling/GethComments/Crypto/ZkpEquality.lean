import GethComments.Crypto.ZkpLinear

/-!
# Equality proofs

An equality proof is a linear equation proof on the product of two commitments. The pool
checks it under one key, where the four generators are `G1, G1, H, H`.

* `verifyEqualityProof_iff`: what the verifier checks.
* `verifyEqualityProof_generate`: an honest proof verifies under any hash.
* `verifyEqualityProof_extracts`: what two accepted transcripts with one first message
  say about the committed values.
-/

namespace GethComments.Zkp

open Schnorr

/-! ## The verifier -/

/-- The challenge of an equality proof with first message `t`. -/
def equalityChallenge (sum256 : Bytes → Bytes) (pub1 pub2 : PublicKey) (C1 C2 : CypherText)
    (t : Bytes) : Nat :=
  challenge sum256 pub1.p ((equalityGenerators pub1 pub2).flatten ++
    bytes (setBytes C1.c2 * setBytes C2.c2 % pub1.p) ++ t)

theorem linearSum_equality {p1 : Nat} (s0 s1 s2 s3 : Bytes) :
    linearSum p1 (List.zip [1, -1, 0, 0] [s0, s1, s2, s3]) = 0 ↔
      setBytes s0 ≡ setBytes s1 [MOD p1] := by
  rw [← Int.natCast_modEq_iff, Int.modEq_iff_dvd, dvd_sub_comm, Int.dvd_iff_emod_eq_zero]
  simp [linearSum, sub_eq_add_neg, Int.add_emod]

/-- Four responses are required, the first two congruent modulo `P - 1`, and the product
of the product must restore `T`. -/
theorem verifyEqualityProof_iff (sum256 : Bytes → Bytes) {pub1 pub2 : PublicKey}
    (hpp : pub1.p = pub2.p) (C1 C2 : CypherText) (ep : EqualityProof) :
    verifyEqualityProof sum256 pub1 pub2 C1 C2 ep = true ↔ ∃ s0 s1 s2 s3, ep.s = [s0, s1, s2, s3] ∧
        setBytes s0 ≡ setBytes s1 [MOD pub1.p - 1] ∧
        linearT pub1.p (setBytes C1.c2 * setBytes C2.c2 % pub1.p)
          (equalityChallenge sum256 pub1 pub2 C1 C2 ep.t)
          ((equalityGenerators pub1 pub2).zip ep.s) = setBytes ep.t := by
  rw [verifyEqualityProof, if_neg (not_not.mpr hpp)]
  simp only [verifyLinearEquationProof, setBytes_bytes, equalityChallenge]
  rcases ep.s with _ | ⟨s0, _ | ⟨s1, _ | ⟨s2, _ | ⟨s3, _ | ⟨s4, rest⟩⟩⟩⟩⟩
  case cons.cons.cons.cons.nil =>
    have hlen : ¬([s0, s1, s2, s3].length ≠ (equalityGenerators pub1 pub2).length ∨
        (equalityGenerators pub1 pub2).length ≠ [(1 : Int), -1, 0, 0].length) := by
      simp [equalityGenerators]
    rw [if_neg hlen]
    simp only [Int.zero_emod, mul_zero, neg_zero, linearSum_equality, List.cons.injEq, and_true]
    split
    case isTrue hne =>
      simp only [Bool.false_eq_true, false_iff]
      rintro ⟨_, _, _, _, -, -, ht⟩
      exact hne ht
    case isFalse heq =>
      rw [decide_eq_true_eq]
      constructor
      · intro hs
        exact ⟨s0, s1, s2, s3, ⟨rfl, rfl, rfl, rfl⟩, hs, not_not.mp heq⟩
      · rintro ⟨_, _, _, _, ⟨rfl, rfl, rfl, rfl⟩, hs, -⟩
        exact hs
  all_goals simp [equalityGenerators]

theorem natCast_linearT_equality (pub : PublicKey) (y c : Nat) (s0 s1 s2 s3 : Bytes) :
    (linearT pub.p y c ((equalityGenerators pub pub).zip [s0, s1, s2, s3]) : ZMod pub.p) =
      (y : ZMod pub.p) ^ c *
        ((pub.g1 : ZMod pub.p) ^ (setBytes s0 + setBytes s1) *
          (pub.h : ZMod pub.p) ^ (setBytes s2 + setBytes s3)) := by
  rw [linearT, natCast_foldl_exp pub.p]
  simp [equalityGenerators, setBytes_bytes, pow_add, mul_assoc]

/-! ## Honest proofs -/

/-- Completeness of the equality proof under one key, for every hash function and all
nonces: both commitments hide the value denoted by `v`. -/
theorem verifyEqualityProof_generate (sum256 : Bytes → Bytes) {pub : PublicKey} (hk : pub.Valid)
    {C1 C2 : Commitment} {E1 E2 : CypherText} {v : Bytes}
    (h1 : (setBytes C1.commitment : ZMod pub.p) =
      (pub.g1 : ZMod pub.p) ^ setBytes v * (pub.h : ZMod pub.p) ^ setBytes C1.r)
    (h2 : (setBytes C2.commitment : ZMod pub.p) =
      (pub.g1 : ZMod pub.p) ^ setBytes v * (pub.h : ZMod pub.p) ^ setBytes C2.r)
    (hE : setBytes E1.c2 * setBytes E2.c2 = setBytes C1.commitment * setBytes C2.commitment)
    (rbi : List Nat) :
    verifyEqualityProof sum256 pub pub E1 E2
      (generateEqualityProofOn sum256 pub pub C1 C2 v rbi) = true := by
  have hcloses : Closes (pub.p - 1) [1, -1, 0, 0] := Or.inl (by simp [lastCoeff])
  have hdot := (closes_iff hk.p1_pos _).mp hcloses rbi
  have hgens : ∀ gi ∈ equalityGenerators pub pub, (setBytes gi : ZMod pub.p) ≠ 0 := by
    simp [equalityGenerators, setBytes_bytes, hk.g1, hk.h]
  have hy : (setBytes (bytes (setBytes C1.commitment * setBytes C2.commitment % pub.p)) :
      ZMod pub.p) = product pub.p (equalityGenerators pub pub)
        ([v, v, C1.r, C2.r].map setBytes) := by
    simp only [setBytes_bytes, ZMod.natCast_mod, Nat.cast_mul, h1, h2, product, equalityGenerators,
      List.map_cons, List.map_nil, List.zipWith_cons_cons, List.zipWith_nil_left, List.prod_cons,
      List.prod_nil]
    ring
  have hzero : dot [1, -1, 0, 0] (numbers [v, v, C1.r, C2.r]) = 0 := by simp [numbers]
  rw [verifyEqualityProof, generateEqualityProofOn, if_neg (not_not.mpr rfl),
    if_neg (not_not.mpr rfl), hE]
  rw [verifyLinearEquationProof_generate sum256 hk.prime (x := [v, v, C1.r, C2.r])
    (g := equalityGenerators pub pub) rbi rfl rfl hgens hy rfl rfl, hzero]
  simpa using hdot.eq

/-! ## What two transcripts prove -/

section Extraction

variable {pub : PublicKey}

theorem equation_of_verifyEqualityProof {sum256 : Bytes → Bytes} (hp : pub.p.Prime)
    (hg : (pub.g1 : ZMod pub.p) ≠ 0) {C1 C2 : CypherText} {ep : EqualityProof}
    (h : verifyEqualityProof sum256 pub pub C1 C2 ep = true) :
    ((setBytes C1.c2 * setBytes C2.c2 : Nat) : ZMod pub.p) ^
          equalityChallenge sum256 pub pub C1 C2 ep.t *
        (((pub.g1 : ZMod pub.p) ^ 2) ^ setBytes (ep.s.getD 0 []) *
          (pub.h : ZMod pub.p) ^ (setBytes (ep.s.getD 2 []) + setBytes (ep.s.getD 3 []))) =
      (setBytes ep.t : ZMod pub.p) := by
  have : Fact pub.p.Prime := ⟨hp⟩
  obtain ⟨s0, s1, s2, s3, hs, hmod, ht⟩ := (verifyEqualityProof_iff sum256 rfl C1 C2 ep).mp h
  have hs1 : (pub.g1 : ZMod pub.p) ^ setBytes s1 = (pub.g1 : ZMod pub.p) ^ setBytes s0 :=
    pow_eq_pow_of_modEq (ZMod.pow_card_sub_one_eq_one hg) hmod.symm
  rw [hs] at ht ⊢
  rw [← ht, natCast_linearT_equality, ZMod.natCast_mod, pow_add _ (setBytes s0), hs1, ← pow_add,
    ← two_mul, pow_mul]
  rfl

/-- Under a key whose `H` generates all residues, any two commitments have accepted
transcripts with the first message 1, whatever the hash function. -/
theorem exists_verifyEqualityProof (hp : pub.p.Prime)
    (hh : orderOf (pub.h : ZMod pub.p) = pub.p - 1) {C1 C2 : CypherText}
    (hC1 : (setBytes C1.c2 : ZMod pub.p) ≠ 0) (hC2 : (setBytes C2.c2 : ZMod pub.p) ≠ 0)
    (sum256 : Bytes → Bytes) :
    ∃ ep : EqualityProof, ep.t = bytes 1 ∧ verifyEqualityProof sum256 pub pub C1 C2 ep = true := by
  have : Fact pub.p.Prime := ⟨hp⟩
  have hp1 : 0 < pub.p - 1 := by have := hp.one_lt; omega
  obtain ⟨z, hz⟩ := exists_pow_eq_of_orderOf hh (mul_ne_zero hC1 hC2)
  have hpow : (pub.h : ZMod pub.p) ^ (pub.p - 1) = 1 :=
    ZMod.pow_card_sub_one_eq_one (ne_zero_of_orderOf hh)
  refine ⟨⟨[[], [], bytes (response (pub.p - 1) 0
    (equalityChallenge sum256 pub pub C1 C2 (bytes 1)) z), []], bytes 1⟩, rfl, ?_⟩
  refine (verifyEqualityProof_iff sum256 rfl C1 C2 _).mpr ⟨_, _, _, _, rfl, rfl, ?_⟩
  rw [setBytes_bytes]
  refine natCast_eq_of_lt (linearT_lt hp.pos _ _ _) hp.one_lt ?_
  have hresp := pow_response_mul hp1 hpow 0 (equalityChallenge sum256 pub pub C1 C2 (bytes 1)) z
  rw [natCast_linearT_equality, ZMod.natCast_mod, Nat.cast_mul, ← hz]
  simpa [setBytes_bytes, mul_comm] using hresp

theorem values_eq_iff [Fact pub.p.Prime] (hg : orderOf (pub.g1 : ZMod pub.p) = pub.p - 1)
    (hh : orderOf (pub.h : ZMod pub.p) = pub.p - 1) {v1 v2 r w z : Nat}
    (h : (pub.g1 : ZMod pub.p) ^ (v1 + v2) * (pub.h : ZMod pub.p) ^ r =
      (pub.g1 : ZMod pub.p) ^ (2 * w) * (pub.h : ZMod pub.p) ^ z) (hz : z ≡ r [MOD pub.p - 1]) :
    v1 ≡ v2 [MOD pub.p - 1] ↔ 2 * w ≡ 2 * v1 [MOD pub.p - 1] := by
  have hh0 := ne_zero_of_orderOf hh
  rw [pow_eq_pow_of_modEq (ZMod.pow_card_sub_one_eq_one hh0) hz] at h
  have hsum := modEq_of_pow_eq hg (mul_right_cancel₀ (pow_ne_zero _ hh0) h)
  rw [two_mul v1]
  exact ⟨fun hv => hsum.symm.trans (hv.symm.add_left v1),
    fun hw => (Nat.ModEq.add_left_cancel' v1 (hsum.trans hw)).symm⟩

end Extraction

/-- **What an equality proof under one key proves.** For a prime `P` with `G1` and `H` of
order `P - 1` and commitments to `v1` and `v2`: two accepted transcripts with the same `T`
whose challenges differ by a unit modulo `P - 1` yield an opening of the product of the
commitments to an even value `2 * w`. If its blinding is the sum of the two blindings, then the
values agree exactly if `2 * w` is twice the first one. The transcripts do not force that: for any
values, blindings and hash functions they exist. -/
theorem verifyEqualityProof_extracts (pub : PublicKey) (hp : pub.p.Prime)
    (hg : orderOf (pub.g1 : ZMod pub.p) = pub.p - 1)
    (hh : orderOf (pub.h : ZMod pub.p) = pub.p - 1) (v1 v2 r1 r2 : Nat) (C1 C2 : CypherText)
    (hC1 : (setBytes C1.c2 : ZMod pub.p) = (pub.g1 : ZMod pub.p) ^ v1 * (pub.h : ZMod pub.p) ^ r1)
    (hC2 : (setBytes C2.c2 : ZMod pub.p) = (pub.g1 : ZMod pub.p) ^ v2 * (pub.h : ZMod pub.p) ^ r2) :
    (∀ (sum256 sum256' : Bytes → Bytes) (ep ep' : EqualityProof),
      verifyEqualityProof sum256 pub pub C1 C2 ep = true →
      verifyEqualityProof sum256' pub pub C1 C2 ep' = true →
      setBytes ep.t = setBytes ep'.t →
      ∀ d : Int, d = (equalityChallenge sum256 pub pub C1 C2 ep.t : Int) -
          equalityChallenge sum256' pub pub C1 C2 ep'.t →
        IsCoprime d (pub.p - 1 : Nat) →
        ∃ w z : Nat,
          d * w ≡ setBytes (ep'.s.getD 0 []) - setBytes (ep.s.getD 0 []) [ZMOD (pub.p - 1 : Nat)] ∧
          d * z ≡ (setBytes (ep'.s.getD 2 []) + setBytes (ep'.s.getD 3 []) : Nat) -
            (setBytes (ep.s.getD 2 []) + setBytes (ep.s.getD 3 []) : Nat)
              [ZMOD (pub.p - 1 : Nat)] ∧
          (pub.g1 : ZMod pub.p) ^ (v1 + v2) * (pub.h : ZMod pub.p) ^ (r1 + r2) =
            (pub.g1 : ZMod pub.p) ^ (2 * w) * (pub.h : ZMod pub.p) ^ z ∧
          (z ≡ r1 + r2 [MOD pub.p - 1] →
            (v1 ≡ v2 [MOD pub.p - 1] ↔ 2 * w ≡ 2 * v1 [MOD pub.p - 1]))) ∧
    ∀ sum256 sum256' : Bytes → Bytes, ∃ ep ep' : EqualityProof, ep.t = ep'.t ∧
      verifyEqualityProof sum256 pub pub C1 C2 ep = true ∧
      verifyEqualityProof sum256' pub pub C1 C2 ep' = true := by
  have : Fact pub.p.Prime := ⟨hp⟩
  have hg0 := ne_zero_of_orderOf hg
  have hh0 := ne_zero_of_orderOf hh
  have hC1' : (setBytes C1.c2 : ZMod pub.p) ≠ 0 :=
    hC1 ▸ mul_ne_zero (pow_ne_zero _ hg0) (pow_ne_zero _ hh0)
  have hC2' : (setBytes C2.c2 : ZMod pub.p) ≠ 0 :=
    hC2 ▸ mul_ne_zero (pow_ne_zero _ hg0) (pow_ne_zero _ hh0)
  constructor
  · intro sum256 sum256' ep ep' hacc hacc' ht d hd hinv
    have heq := equation_of_verifyEqualityProof hp hg0 hacc
    have heq' := equation_of_verifyEqualityProof hp hg0 hacc'
    rw [Nat.cast_mul, hC1, hC2] at heq heq'
    obtain ⟨w, z, hw, hz, hwz⟩ := exists_exponents_of_two_residues (pow_ne_zero 2 hg0) hh0
      (hC1 ▸ hC2 ▸ mul_ne_zero hC1' hC2') heq (ht ▸ heq') (hd ▸ hinv)
    have hopen : (pub.g1 : ZMod pub.p) ^ (v1 + v2) * (pub.h : ZMod pub.p) ^ (r1 + r2) =
        (pub.g1 : ZMod pub.p) ^ (2 * w) * (pub.h : ZMod pub.p) ^ z := by
      rw [pow_add, pow_add, mul_mul_mul_comm, hwz, ← pow_mul]
    exact ⟨w, z, hd ▸ hw, hd ▸ hz, hopen, values_eq_iff hg hh hopen⟩
  · intro sum256 sum256'
    obtain ⟨ep, ht, hacc⟩ := exists_verifyEqualityProof hp hh hC1' hC2' sum256
    obtain ⟨ep', ht', hacc'⟩ := exists_verifyEqualityProof hp hh hC1' hC2' sum256'
    exact ⟨ep, ep', ht.trans ht'.symm, hacc, hacc'⟩

theorem key23_orderOf : orderOf (key23.g1 : ZMod key23.p) = key23.p - 1 ∧
    orderOf (key23.h : ZMod key23.p) = key23.p - 1 :=
  ⟨(orderOf_eq_iff (by decide)).mpr (by decide), (orderOf_eq_iff (by decide)).mpr (by decide)⟩

/-- A hash function with one value, of 32 bytes. -/
def constantHash (c : UInt8) : Bytes → Bytes := fun _ => List.replicate 31 0 ++ [c]

/-- Commitments to 1 and 3 with accepted transcripts for the challenges 1 and 2. -/
theorem verifyEqualityProof_extracts_key23 :
    ∃ w z : Nat, (key23.g1 : ZMod key23.p) ^ (1 + 3) * (key23.h : ZMod key23.p) ^ (0 + 0) =
      (key23.g1 : ZMod key23.p) ^ (2 * w) * (key23.h : ZMod key23.p) ^ z ∧
      (z ≡ 0 + 0 [MOD key23.p - 1] →
        (1 ≡ 3 [MOD key23.p - 1] ↔ 2 * w ≡ 2 * 1 [MOD key23.p - 1])) := by
  obtain ⟨w, z, -, -, h⟩ := (verifyEqualityProof_extracts key23 key23_valid.prime key23_orderOf.1
    key23_orderOf.2 1 3 0 0 ⟨[], [5]⟩ ⟨[], [10]⟩ (by decide) (by decide)).1
    (constantHash 1) (constantHash 2) ⟨[[20], [20], [], []], [1]⟩ ⟨[[18], [18], [], []], [1]⟩
    (by decide) (by decide) rfl (-1) (by decide) isCoprime_one_left.neg_left
  exact ⟨w, z, h⟩

/-- Different committed values with two accepted transcripts that share `T`. -/
theorem verifyEqualityProof_accepts_unequal :
    key23.p.Prime ∧ orderOf (key23.g1 : ZMod key23.p) = key23.p - 1 ∧
      orderOf (key23.h : ZMod key23.p) = key23.p - 1 ∧
      (commit key23 1 []).commitment = [5] ∧ (commit key23 3 []).commitment = [10] ∧
      verifyEqualityProof (constantHash 1) key23 key23 ⟨[], [5]⟩ ⟨[], [10]⟩
        ⟨[[20], [20], [], []], [1]⟩ = true ∧
      verifyEqualityProof (constantHash 2) key23 key23 ⟨[], [5]⟩ ⟨[], [10]⟩
        ⟨[[18], [18], [], []], [1]⟩ = true ∧
      equalityChallenge (constantHash 1) key23 key23 ⟨[], [5]⟩ ⟨[], [10]⟩ [1] = 1 ∧
      equalityChallenge (constantHash 2) key23 key23 ⟨[], [5]⟩ ⟨[], [10]⟩ [1] = 2 ∧
      IsCoprime ((1 : Int) - 2) (key23.p - 1 : Nat) ∧ ¬1 ≡ 3 [MOD key23.p - 1] := by
  refine ⟨key23_valid.prime, key23_orderOf.1, key23_orderOf.2, ?_, ?_, ?_, ?_, ?_, ?_,
    ⟨-1, 0, rfl⟩, ?_⟩
    <;> decide

end GethComments.Zkp
