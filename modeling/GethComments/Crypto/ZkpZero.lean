import GethComments.Crypto.Sha256
import GethComments.Crypto.ZkpEquality

/-!
# Commitments that are zero modulo `P`

The verifiers never check that a cyphertext or commitment is a unit. A component
congruent to 0 turns its first message into 0, which `Bytes()` writes as the
empty string, so the response that should open it no longer matters.

* `exp_of_dvd`: powers of a multiple of `P`.
* `verify_of_dvd_iff`: what each verifier still checks of such a component.
-/

namespace GethComments.Zkp

/-- The bytes of a first message `cm^c * rest` modulo `P`, where `rest` comes from
the responses, with the case of a commitment that is 0 modulo `P` set apart: under
the challenge 0 only `rest` is left, under any other challenge nothing. -/
def message (p cm c rest : Nat) : Bytes :=
  if p ∣ cm then if c = 0 then bytes rest else []
  else bytes (cm ^ c * rest % p)

/-- `G1^v * H^r` modulo `P`. -/
def powers (pub : PublicKey) (v r : Nat) : Nat := exp pub.g1 v pub.p * exp pub.h r pub.p % pub.p

variable {p : Nat} {pub : PublicKey}

theorem exp_of_dvd {x : Nat} (hp : 1 < p) (h : p ∣ x) (c : Nat) :
    exp x c p = if c = 0 then 1 else 0 := by
  split
  case isTrue hc => simp [exp, hc, Nat.mod_eq_of_lt hp]
  case isFalse hc => exact Nat.mod_eq_zero_of_dvd (dvd_pow h hc)

theorem powers_lt (hp : 1 < pub.p) (v r : Nat) : powers pub v r < pub.p := Nat.mod_lt _ (by omega)

theorem bytes_exp_mul {rest : Nat} (hp : 1 < p) (hrest : rest < p) (cm c : Nat) :
    bytes (exp cm c p * rest % p) = message p cm c rest := by
  rw [message]
  split
  case isTrue h =>
    rw [exp_of_dvd hp h]
    split
    · rw [one_mul, Nat.mod_eq_of_lt hrest]
    · simp
  case isFalse => rw [exp, Nat.mod_mul_mod]

theorem bytes_formatT2 (hp : 1 < pub.p) (c1 c z2 : Nat) :
    bytes (formatT2 pub c1 c z2) = message pub.p c1 c (exp pub.g2 z2 pub.p) := by
  rw [← bytes_exp_mul hp (exp_lt (by omega) _ _), formatT2]

theorem bytes_balanceT (hp : 1 < pub.p) (cm c v r : Nat) :
    bytes (balanceT pub cm c v r) = message pub.p cm c (powers pub v r) := by
  rw [← bytes_exp_mul hp (powers_lt hp _ _), balanceT, powers, mul_comm (exp cm c pub.p)]

/-! ## Linear equations -/

theorem foldl_mul_zero (p : Nat) (gs : List (Bytes × Bytes)) :
    gs.foldl (fun t gs => t * exp (setBytes gs.1) (setBytes gs.2) p % p) 0 = 0 := by
  induction gs with
  | nil => rfl
  | cons g gs ih => simpa using ih

/-- With `y` zero, the recomputed message is the product of the powers alone
under the challenge 0, and 0 under any other. -/
theorem linearT_zero (hp : 1 < p) (c : Nat) (gs : List (Bytes × Bytes)) :
    linearT p 0 c gs = if c = 0 then linearT p 1 0 gs else 0 := by
  split
  case isTrue hc => simp [linearT, hc, exp]
  case isFalse hc => rw [linearT, exp_of_dvd hp (dvd_zero p), if_neg hc, foldl_mul_zero]

/-- An equality proof on a product that is 0 modulo `P`: four responses are
required, the first two congruent modulo `P - 1`, and `T` must denote 0 unless
the challenge happens to be 0. -/
theorem verifyEqualityProof_of_dvd_iff (sum256 : Bytes → Bytes) {pub1 pub2 : PublicKey}
    (hp : 1 < pub1.p) (hpp : pub1.p = pub2.p) {C1 C2 : CypherText} (ep : EqualityProof)
    (h : pub1.p ∣ setBytes C1.c2 * setBytes C2.c2) :
    verifyEqualityProof sum256 pub1 pub2 C1 C2 ep = true ↔ ∃ s0 s1 s2 s3, ep.s = [s0, s1, s2, s3] ∧
        setBytes s0 ≡ setBytes s1 [MOD pub1.p - 1] ∧
        setBytes ep.t =
          if challenge sum256 pub1.p ((equalityGenerators pub1 pub2).flatten ++ ep.t) = 0
          then linearT pub1.p 1 0 ((equalityGenerators pub1 pub2).zip ep.s) else 0 := by
  rw [verifyEqualityProof_iff sum256 hpp]
  simp only [equalityChallenge, Nat.mod_eq_zero_of_dvd h, bytes_zero, List.append_nil,
    linearT_zero hp, eq_comm (a := setBytes ep.t)]

/-! ## The verifiers -/

/-- **What a component congruent to 0 modulo `P` leaves of a proof.** No verifier
rejects it. The format and balance verifiers accept exactly when `c` is the
challenge of their messages, where the message of a component that is 0 is empty
(under the challenge 0: the powers of the responses). The equality verifier
accepts such a component exactly when there are four responses, the first two
congruent modulo `P - 1`, and `T` denotes 0 (under the challenge 0: the product
of the powers of the responses). -/
theorem verify_of_dvd_iff (sum256 : Bytes → Bytes) (pub pub2 : PublicKey) (hk : pub.Valid)
    (hpp : pub.p = pub2.p) :
    (∀ (C : CypherText) (fp : FormatProof), verifyFormatProof sum256 C pub fp = true ↔
        setBytes fp.c = challenge sum256 pub.p
          (message pub.p (setBytes C.c2) (setBytes fp.c)
              (powers pub (setBytes fp.z1) (setBytes fp.z2)) ++
            message pub.p (setBytes C.c1) (setBytes fp.c)
              (exp pub.g2 (setBytes fp.z2) pub.p))) ∧
    (∀ (cmR cmS cmO : Bytes) (bp : BalanceProof),
      verifyBalanceProof sum256 cmR cmS cmO pub bp = true ↔ setBytes bp.c = challenge sum256 pub.p
          (message pub.p (setBytes cmR) (setBytes bp.c)
              (powers pub (setBytes bp.rV) (setBytes bp.rR)) ++
            message pub.p (setBytes cmS) (setBytes bp.c)
              (powers pub (setBytes bp.sV) (setBytes bp.sR)) ++
            message pub.p (setBytes cmO) (setBytes bp.c)
              (powers pub (setBytes bp.rV + setBytes bp.sV) (setBytes bp.sOr)))) ∧
    (∀ (C1 C2 : CypherText) (ep : EqualityProof), pub.p ∣ setBytes C1.c2 ∨ pub.p ∣ setBytes C2.c2 →
      (verifyEqualityProof sum256 pub pub2 C1 C2 ep = true ↔
        ∃ s0 s1 s2 s3, ep.s = [s0, s1, s2, s3] ∧ setBytes s0 ≡ setBytes s1 [MOD pub.p - 1] ∧
          setBytes ep.t =
            if challenge sum256 pub.p ((equalityGenerators pub pub2).flatten ++ ep.t) = 0
            then linearT pub.p 1 0 ((equalityGenerators pub pub2).zip ep.s) else 0)) := by
  have hp := hk.prime.one_lt
  refine ⟨fun C fp => ?_, fun cmR cmS cmO bp => ?_, fun C1 C2 ep h => ?_⟩
  · simp only [verifyFormatProof, formatT1_eq_balanceT (by omega : 0 < pub.p),
      bytes_balanceT hp, bytes_formatT2 hp, decide_eq_true_eq]
  · simp only [verifyBalanceProof, bytes_balanceT hp, decide_eq_true_eq]
  · refine verifyEqualityProof_of_dvd_iff sum256 hp hpp ep ?_
    rcases h with h | h
    · exact Dvd.dvd.mul_right h _
    · exact Dvd.dvd.mul_left h _

theorem verify_of_dvd_iff_key23 :
    key23.Valid ∧ verifyBalanceProof Sha256.sum256 [] [] [] key23 ⟨[15], [], [], [], [], []⟩ := by
  refine ⟨key23_valid, ?_⟩
  rw [(verify_of_dvd_iff Sha256.sum256 key23 key23 key23_valid rfl).2.1]
  decide +kernel

/-- Zero cyphertexts and commitments that all three verifiers accept, with SHA-256. -/
theorem verify_accepts_zero : key23.Valid ∧
      verifyFormatProof Sha256.sum256 ⟨[23], [0]⟩ key23 ⟨[15], [3], [4]⟩ = true ∧
      verifyBalanceProof Sha256.sum256 [] [46] [23] key23 ⟨[15], [9], [1], [4], [5], [6]⟩ = true ∧
      verifyEqualityProof Sha256.sum256 key23 key23 ⟨[2], []⟩ ⟨[3], [8]⟩
        ⟨[[7], [7], [1], [2]], []⟩ = true :=
  ⟨key23_valid, by decide +kernel, by decide +kernel, by decide +kernel⟩

end GethComments.Zkp
