import GethComments.Crypto.Zkp

/-!
# The proofs of `crypto/zkp` in the field of residues

The verifiers compute with naturals below `P`; here their first messages are
read in `ZMod P`, where the honest formulas restore them.

* `verifyFormatProof_generate`: an honest format proof verifies under any hash.
* `balanceT3_eq_iff`: the third message of an honest balance proof is restored
  exactly when the values balance modulo the order of `G1`.
-/

namespace GethComments.Zkp

variable {pub : PublicKey}

open Schnorr

/-- A key over a prime `P` whose generators are units. -/
structure PublicKey.Valid (pub : PublicKey) : Prop where
  prime : pub.p.Prime
  g1 : (pub.g1 : ZMod pub.p) ≠ 0
  g2 : (pub.g2 : ZMod pub.p) ≠ 0
  h : (pub.h : ZMod pub.p) ≠ 0

namespace PublicKey.Valid

variable {pub : PublicKey}

theorem p_pos (hv : pub.Valid) : 0 < pub.p := hv.prime.pos

theorem p1_pos (hv : pub.Valid) : 0 < pub.p - 1 := by
  have := hv.prime.one_lt
  omega

theorem pow_p1 (hv : pub.Valid) {g : Nat} (hg : (g : ZMod pub.p) ≠ 0) :
    (g : ZMod pub.p) ^ (pub.p - 1) = 1 :=
  have : Fact pub.p.Prime := ⟨hv.prime⟩
  ZMod.pow_card_sub_one_eq_one hg

end PublicKey.Valid

/-! ## First messages as residues -/

@[simp] theorem natCast_exp (x y p : Nat) : ((exp x y p : Nat) : ZMod p) = (x : ZMod p) ^ y := by
  simp [exp]

theorem exp_lt {p : Nat} (hp : 0 < p) (x y : Nat) : exp x y p < p := Nat.mod_lt _ hp

@[simp] theorem natCast_formatT1 (pub : PublicKey) (c2 c z1 z2 : Nat) :
    (formatT1 pub c2 c z1 z2 : ZMod pub.p) =
      (c2 : ZMod pub.p) ^ c * (pub.g1 : ZMod pub.p) ^ z1 * (pub.h : ZMod pub.p) ^ z2 := by
  simp [formatT1]

@[simp] theorem natCast_formatT2 (pub : PublicKey) (c1 c z2 : Nat) :
    (formatT2 pub c1 c z2 : ZMod pub.p) = (c1 : ZMod pub.p) ^ c * (pub.g2 : ZMod pub.p) ^ z2 := by
  simp [formatT2]

@[simp] theorem natCast_balanceT (pub : PublicKey) (cm c v r : Nat) :
    (balanceT pub cm c v r : ZMod pub.p) =
      (pub.g1 : ZMod pub.p) ^ v * (pub.h : ZMod pub.p) ^ r * (cm : ZMod pub.p) ^ c := by
  simp [balanceT]

theorem formatT1_lt (hp : 0 < pub.p) (c2 c z1 z2 : Nat) :
    formatT1 pub c2 c z1 z2 < pub.p := Nat.mod_lt _ hp

theorem formatT2_lt (hp : 0 < pub.p) (c1 c z2 : Nat) :
    formatT2 pub c1 c z2 < pub.p := Nat.mod_lt _ hp

theorem balanceT_lt (hp : 0 < pub.p) (cm c v r : Nat) :
    balanceT pub cm c v r < pub.p := Nat.mod_lt _ hp

theorem formatT1_eq_balanceT (hp : 0 < pub.p) (c2 c z1 z2 : Nat) :
    formatT1 pub c2 c z1 z2 = balanceT pub c2 c z1 z2 := by
  refine natCast_eq_of_lt (formatT1_lt hp _ _ _ _) (balanceT_lt hp _ _ _ _) ?_
  rw [natCast_formatT1, natCast_balanceT, mul_assoc, mul_comm]

variable {v : Nat}

theorem natCast_commit (pub : PublicKey) (hv : v < pub.p) (r : Nat) :
    (setBytes (commit pub v (bytes r)).commitment : ZMod pub.p) =
      (pub.g1 : ZMod pub.p) ^ v * (pub.h : ZMod pub.p) ^ r := by
  simp [commit, setBytes_bytes, Nat.mod_eq_of_lt hv]

/-! ## Honest format proofs -/

/-- The cyphertext `(G2^r, G1^v * H^r)` that `EncryptValue` makes of `v` with blinding `r`. -/
def cypherOf (pub : PublicKey) (v r : Nat) : CypherText :=
  ⟨bytes (exp pub.g2 r pub.p), (commit pub v (bytes r)).commitment⟩

theorem encryptValue_cypherOf (pub : PublicKey) {m : Nat} (hm : m ≤ 262144) (k : Nat) :
    encryptValue pub m k = (cypherOf pub m k, commit pub m (bytes k), none) := by
  simp [encryptValue, cypherOf, Nat.not_lt.mpr hm]

theorem balanceT_honest (hk : pub.Valid) (hv : v < pub.p) (r a b c : Nat) :
    balanceT pub (setBytes (commit pub v (bytes r)).commitment) c
        (response (pub.p - 1) a c v) (response (pub.p - 1) b c r) =
      exp pub.g1 a pub.p * exp pub.h b pub.p % pub.p := by
  refine natCast_eq_of_lt (balanceT_lt hk.p_pos _ _ _ _) (Nat.mod_lt _ hk.p_pos) ?_
  have h := pow_response_mul₂ hk.p1_pos (hk.pow_p1 hk.g1) (hk.pow_p1 hk.h) a b c v r
  rw [natCast_balanceT, natCast_commit pub hv, h]
  simp

theorem formatT2_honest (hk : pub.Valid) (r b c : Nat) :
    formatT2 pub (exp pub.g2 r pub.p) c (response (pub.p - 1) b c r) = exp pub.g2 b pub.p := by
  refine natCast_eq_of_lt (formatT2_lt hk.p_pos _ _ _) (exp_lt hk.p_pos _ _) ?_
  have h := pow_response_mul hk.p1_pos (hk.pow_p1 hk.g2) b c r
  rw [natCast_formatT2, natCast_exp, natCast_exp, mul_comm, h]

theorem verifyFormatProof_generate (sum256 : Bytes → Bytes) (hk : pub.Valid)
    (hv : v < pub.p) (r a b : Nat) :
    verifyFormatProof sum256 (cypherOf pub v r) pub
      (generateFormatProof sum256 pub v (bytes r) a b) = true := by
  simp only [verifyFormatProof, generateFormatProof, cypherOf, setBytes_bytes,
    formatT1_eq_balanceT hk.p_pos, balanceT_honest hk hv, formatT2_honest hk, decide_true]

/-! ## Honest balance proofs -/

def balanceT3 (pub : PublicKey) (a d f : Nat) : Nat :=
  exp pub.g1 ((a + d) % (pub.p - 1)) pub.p * exp pub.h f pub.p % pub.p

/-- The third message the verifier computes from an honest balance proof. -/
def balanceT3V (pub : PublicKey) (vR vS vO rO a d f c : Nat) : Nat :=
  balanceT pub (setBytes (commit pub vO (bytes rO)).commitment) c
    (response (pub.p - 1) a c vR + response (pub.p - 1) d c vS) (response (pub.p - 1) f c rO)

theorem natCast_balanceT3 (hk : pub.Valid) (a d f : Nat) : (balanceT3 pub a d f : ZMod pub.p) =
      (pub.g1 : ZMod pub.p) ^ (a + d) * (pub.h : ZMod pub.p) ^ f := by
  simp [balanceT3, ← pow_eq_pow_mod (a + d) (hk.pow_p1 hk.g1)]

/-- Times the powers of the inputs, the verifier's third message is the
generator's times the power of the output. -/
theorem natCast_balanceT3V (hk : pub.Valid) {vO : Nat} (hO : vO < pub.p) (vR vS rO a d f c : Nat) :
    (balanceT3V pub vR vS vO rO a d f c : ZMod pub.p) *
        (pub.g1 : ZMod pub.p) ^ (c * (vR + vS)) =
      (balanceT3 pub a d f : ZMod pub.p) * (pub.g1 : ZMod pub.p) ^ (c * vO) := by
  have hR := pow_response_mul hk.p1_pos (hk.pow_p1 hk.g1) a c vR
  have hS := pow_response_mul hk.p1_pos (hk.pow_p1 hk.g1) d c vS
  have hO' := pow_response_mul hk.p1_pos (hk.pow_p1 hk.h) f c rO
  rw [natCast_balanceT3 hk, balanceT3V, natCast_balanceT, natCast_commit pub hO, pow_add _ a d,
    ← hR, ← hS, ← hO']
  ring

theorem balanceT3_eq_iff (hk : pub.Valid) {vO : Nat} (hO : vO < pub.p) (vR vS rO a d f c : Nat) :
    balanceT3V pub vR vS vO rO a d f c = balanceT3 pub a d f ↔
      c * (vR + vS) ≡ c * vO [MOD orderOf (pub.g1 : ZMod pub.p)] := by
  have : Fact pub.p.Prime := ⟨hk.prime⟩
  have hmul := natCast_balanceT3V hk hO vR vS rO a d f c
  have hpow : (pub.g1 : ZMod pub.p) ^ (c * (vR + vS)) = (pub.g1 : ZMod pub.p) ^ (c * vO) ↔
      c * (vR + vS) ≡ c * vO [MOD orderOf (pub.g1 : ZMod pub.p)] := by
    have hu := pow_eq_pow_iff_modEq (x := Units.mk0 _ hk.g1) (n := c * (vR + vS)) (m := c * vO)
    rw [← orderOf_units] at hu
    simpa [Units.ext_iff] using hu
  have hne : (balanceT3 pub a d f : ZMod pub.p) ≠ 0 := by
    rw [natCast_balanceT3 hk]
    exact mul_ne_zero (pow_ne_zero _ hk.g1) (pow_ne_zero _ hk.h)
  rw [← hpow]
  constructor
  · intro h
    rw [h] at hmul
    exact mul_left_cancel₀ hne hmul
  · intro h
    refine natCast_eq_of_lt (balanceT_lt hk.p_pos _ _ _ _) (Nat.mod_lt _ hk.p_pos) ?_
    rw [h] at hmul
    exact mul_right_cancel₀ (pow_ne_zero _ hk.g1) hmul

end GethComments.Zkp
