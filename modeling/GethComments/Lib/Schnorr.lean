import Mathlib.GroupTheory.OrderOfElement
import Mathlib.FieldTheory.Finite.Basic

/-!
# Schnorr responses and modular powers

What Fiat--Shamir proofs over a prime field need: the response `k - c*x` in the
exponents, taken modulo a number that kills the base, and the translation
between naturals below `p` and `ZMod p`.

* `pow_response_mul`: a response and the challenge restore the first message.
* `exists_exponents_of_two_transcripts`: what two accepted transcripts with one first
  message say about the statement.
* `natCast_eq_of_lt`: naturals below `p` are equal when their residues are.
-/

namespace GethComments.Schnorr

/-- The response to challenge `c` for the secret `x` under the nonce `k`,
computed with natural numbers: `k + (n - c*x mod n)` modulo `n`. -/
def response (n k c x : Nat) : Nat := (k + (n - c * x % n)) % n

variable {n c c' p : Nat} {M G : Type*} {g : M}

theorem response_add_modEq (hn : 0 < n) (k c x : Nat) : response n k c x + c * x ≡ k [MOD n] := by
  have hlt : c * x % n < n := Nat.mod_lt _ hn
  have hsplit : n * (c * x / n) + c * x % n = c * x := Nat.div_add_mod _ _
  have hsum : k + (n - c * x % n) + c * x = k + n * (c * x / n + 1) := by
    rw [Nat.mul_add, Nat.mul_one]
    omega
  calc response n k c x + c * x
      ≡ k + (n - c * x % n) + c * x [MOD n] := (Nat.mod_modEq _ _).add_right _
    _ = k + n * (c * x / n + 1) := hsum
    _ ≡ k [MOD n] := by simp [Nat.ModEq]

theorem pow_eq_pow_of_modEq [Monoid M] {a b : Nat} (hg : g ^ n = 1) (h : a ≡ b [MOD n]) :
    g ^ a = g ^ b := by
  rw [pow_eq_pow_mod a hg, pow_eq_pow_mod b hg, h]

/-- Multiplying the response's power by the statement to the challenge gives the
first message back. -/
theorem pow_response_mul [CommMonoid M] (hn : 0 < n) (hg : g ^ n = 1) (k c x : Nat) :
    g ^ response n k c x * (g ^ x) ^ c = g ^ k := by
  rw [← pow_mul, mul_comm x c, ← pow_add]
  exact pow_eq_pow_of_modEq hg (response_add_modEq hn k c x)

theorem pow_response_mul₂ [CommMonoid M] {h : M} (hn : 0 < n) (hg : g ^ n = 1) (hh : h ^ n = 1)
    (k l c x y : Nat) :
    g ^ response n k c x * h ^ response n l c y * (g ^ x * h ^ y) ^ c = g ^ k * h ^ l := by
  rw [mul_pow, mul_mul_mul_comm, pow_response_mul hn hg, pow_response_mul hn hh]

/-! ## Two transcripts with one first message -/

theorem zpow_eq_zpow_of_modEq [Group G] {g : G} {a b : Int} (hg : g ^ n = 1) (h : a ≡ b [ZMOD n]) :
    g ^ a = g ^ b := by
  obtain ⟨k, hk⟩ := h.dvd
  have hb : b = n * k + a := by omega
  rw [hb, zpow_add, zpow_mul, zpow_natCast, hg, one_zpow, one_mul]

/-- Two transcripts with the same first message `t` and challenges whose difference
is invertible determine the statement `y`. -/
theorem eq_of_two_transcripts [CommGroup G] {y a a' t : G} {e : Int} (hy : y ^ n = 1)
    (h : y ^ c * a = t) (h' : y ^ c' * a' = t) (he : ((c : Int) - c') * e ≡ 1 [ZMOD n]) :
    y = (a' / a) ^ e := by
  have hdiff : y ^ ((c : Int) - c') = a' / a := by
    rw [zpow_sub, zpow_natCast, zpow_natCast, ← div_eq_mul_inv, div_eq_div_iff_mul_eq_mul, h,
      mul_comm, h']
  calc y = y ^ (1 : Int) := (zpow_one y).symm
    _ = y ^ (((c : Int) - c') * e) := zpow_eq_zpow_of_modEq hy he.symm
    _ = (a' / a) ^ e := by rw [zpow_mul, hdiff]

theorem exists_natCast_modEq (hn : 0 < n) (a : Int) : ∃ k : Nat, (k : Int) ≡ a [ZMOD n] :=
  ⟨(a % n).toNat, by
    rw [Int.toNat_of_nonneg (Int.emod_nonneg _ (by omega))]
    exact Int.mod_modEq a n⟩

/-- What two transcripts of a proof for a pair of bases say about the statement: it is
a product of powers whose exponents solve the differences of the responses. -/
theorem exists_exponents_of_two_transcripts [CommGroup G] {g h y t : G} {s z s' z' : Nat}
    (hn : 0 < n) (hg : g ^ n = 1) (hh : h ^ n = 1) (hy : y ^ n = 1)
    (hacc : y ^ c * (g ^ s * h ^ z) = t) (hacc' : y ^ c' * (g ^ s' * h ^ z') = t)
    (hinv : IsCoprime ((c : Int) - c') n) :
    ∃ v r : Nat, ((c : Int) - c') * v ≡ s' - s [ZMOD n] ∧ ((c : Int) - c') * r ≡ z' - z [ZMOD n] ∧
      y = g ^ v * h ^ r := by
  obtain ⟨e, f, hef⟩ := hinv
  have he : ((c : Int) - c') * e ≡ 1 [ZMOD n] := Int.modEq_iff_dvd.mpr ⟨f, by rw [← hef]; ring⟩
  -- a difference of responses times the inverse `e`, and back
  have hsolve : ∀ d : Int, ((c : Int) - c') * (d * e) ≡ d [ZMOD n] := fun d => by
    simpa [mul_comm, mul_left_comm, mul_assoc] using he.mul_left d
  obtain ⟨v, hv⟩ := exists_natCast_modEq hn (((s' : Int) - s) * e)
  obtain ⟨r, hr⟩ := exists_natCast_modEq hn (((z' : Int) - z) * e)
  refine ⟨v, r, (hv.mul_left _).trans (hsolve _), (hr.mul_left _).trans (hsolve _), ?_⟩
  have hquot : g ^ s' * h ^ z' / (g ^ s * h ^ z) = g ^ ((s' : Int) - s) * h ^ ((z' : Int) - z) := by
    rw [mul_div_mul_comm, zpow_sub, zpow_sub]
    simp [div_eq_mul_inv]
  rw [eq_of_two_transcripts hy hacc hacc' he, hquot, mul_zpow, ← zpow_mul, ← zpow_mul,
    ← zpow_eq_zpow_of_modEq hg hv, ← zpow_eq_zpow_of_modEq hh hr, zpow_natCast, zpow_natCast]

/-! ## Residues -/

theorem natCast_eq_of_lt {a b : Nat} (ha : a < p) (hb : b < p) (h : (a : ZMod p) = b) : a = b := by
  rw [ZMod.natCast_eq_natCast_iff'] at h
  rwa [Nat.mod_eq_of_lt ha, Nat.mod_eq_of_lt hb] at h

theorem ne_zero_of_orderOf [Fact p.Prime] {g : ZMod p} (hg : orderOf g = p - 1) : g ≠ 0 := by
  have hp := (Fact.out (p := p.Prime)).one_lt
  rintro rfl
  have h1 := pow_orderOf_eq_one (0 : ZMod p)
  rw [hg, zero_pow (by omega)] at h1
  exact zero_ne_one h1

theorem modEq_of_pow_eq [Fact p.Prime] {g : ZMod p} (hg : orderOf g = p - 1) {m n : Nat}
    (h : g ^ m = g ^ n) : m ≡ n [MOD p - 1] := by
  have hunit := congrArg orderOf (Units.val_mk0 (ne_zero_of_orderOf hg))
  rw [orderOf_units, hg] at hunit
  rw [← hunit, ← pow_eq_pow_iff_modEq]
  exact Units.ext (by simpa using h)

/-- Every nonzero residue is a power of one whose order is `p - 1`. -/
theorem exists_pow_eq_of_orderOf [Fact p.Prime] {g y : ZMod p} (hg : orderOf g = p - 1) (hy : y ≠ 0)
    : ∃ k : Nat, g ^ k = y := by
  have hg0 := ne_zero_of_orderOf hg
  have hcard : Nat.card (Subgroup.zpowers (Units.mk0 g hg0)) = Nat.card (ZMod p)ˣ := by
    rw [Nat.card_zpowers, ← orderOf_units, Units.val_mk0, hg, Nat.card_eq_fintype_card,
      ZMod.card_units]
  have htop := Subgroup.eq_top_of_card_eq _ hcard
  have hmem : Units.mk0 y hy ∈ Subgroup.zpowers (Units.mk0 g hg0) := htop ▸ Subgroup.mem_top _
  obtain ⟨k, hk⟩ := mem_powers_iff_mem_zpowers.mpr hmem
  exact ⟨k, by simpa using congrArg Units.val hk⟩

theorem exists_exponents_of_two_residues [Fact p.Prime] {g h y t : ZMod p} {s z s' w : Nat}
    (hg : g ≠ 0) (hh : h ≠ 0) (hy : y ≠ 0) (hacc : y ^ c * (g ^ s * h ^ z) = t)
    (hacc' : y ^ c' * (g ^ s' * h ^ w) = t) (hinv : IsCoprime ((c : Int) - c') (p - 1 : Nat)) :
    ∃ v r : Nat, ((c : Int) - c') * v ≡ s' - s [ZMOD (p - 1 : Nat)] ∧
      ((c : Int) - c') * r ≡ w - z [ZMOD (p - 1 : Nat)] ∧ y = g ^ v * h ^ r := by
  have hp1 : 0 < p - 1 := Nat.sub_pos_of_lt (Fact.out (p := p.Prime)).one_lt
  have hunit : ∀ u : (ZMod p)ˣ, u ^ (p - 1) = 1 := ZMod.units_pow_card_sub_one_eq_one p
  lift g to (ZMod p)ˣ using hg.isUnit
  lift h to (ZMod p)ˣ using hh.isUnit
  lift y to (ZMod p)ˣ using hy.isUnit
  have hsame := hacc'.trans hacc.symm
  norm_cast at hsame
  obtain ⟨v, r, hv, hr, hy⟩ := exists_exponents_of_two_transcripts hp1 (hunit _) (hunit _)
    (hunit _) rfl hsame hinv
  exact ⟨v, r, hv, hr, by exact_mod_cast hy⟩

end GethComments.Schnorr
