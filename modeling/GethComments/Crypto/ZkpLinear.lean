import GethComments.Crypto.Sha256
import GethComments.Crypto.ZkpBalance

/-!
# Linear equation proofs

`GenerateLinearEquationProof` and `VerifyLinearEquationProof`, for any number of generators.

* `dot_drawNonces_iff`: when the nonces solve the homogeneous equation, whatever is drawn.
* `verifyLinearEquationProof_generate`: what the verifier's second check comes down to on an
  honest proof.
* `linear_complete_iff`: which honest proofs always verify.
-/

namespace GethComments.Zkp

open Schnorr List

/-! ## Products and sums of the loops -/

variable {α : Type*} {a : List Int}

theorem natCast_foldl_exp (p : Nat) (base power : α → Nat) (l : List α) (t : Nat) :
    ((l.foldl (fun t x => t * exp (base x) (power x) p % p) t : Nat) : ZMod p) =
      t * (l.map fun x => (base x : ZMod p) ^ power x).prod := by
  induction l generalizing t with
  | nil => simp
  | cons x l ih => simp [ih, mul_assoc]

theorem foldl_exp_lt {p : Nat} (hp : 0 < p) (base power : α → Nat) (l : List α) {t : Nat}
    (ht : t < p) : l.foldl (fun t x => t * exp (base x) (power x) p % p) t < p := by
  induction l generalizing t with
  | nil => exact ht
  | cons x l ih => exact ih (Nat.mod_lt _ hp)

theorem linearT_lt {p : Nat} (hp : 0 < p) (y c : Nat) (gs : List (Bytes × Bytes)) :
    linearT p y c gs < p := foldl_exp_lt hp _ _ gs (exp_lt hp y c)

/-- The sum `a_i * x_i`. -/
def dot (a x : List Int) : Int := (zipWith (· * ·) a x).sum

@[simp] theorem dot_nil (x : List Int) : dot [] x = 0 := by simp [dot]

@[simp] theorem dot_cons (ai xi : Int) (a x : List Int) :
    dot (ai :: a) (xi :: x) = ai * xi + dot a x := by simp [dot]

def numbers (x : List Bytes) : List Int := x.map fun xi => (setBytes xi : Int)

theorem linearSum_eq (p1 : Nat) (a : List Int) (s : List Bytes) :
    linearSum p1 (a.zip s) = dot a (numbers s) % p1 := by
  have h : ∀ mix : Int, (a.zip s).foldl (fun (mix : Int) as =>
      (mix + as.1 * setBytes as.2 % p1) % p1) (mix % p1) = (mix + dot a (numbers s)) % p1 := by
    induction a generalizing s with
    | nil => simp
    | cons ai a ih =>
      intro mix
      cases s with
      | nil => simp [dot, numbers]
      | cons si s => simpa [numbers, ← Int.add_emod, add_assoc] using ih s (mix + ai * setBytes si)
  exact (h 0).trans (by rw [zero_add])

/-! ## Nonces -/

theorem mul_modInverse_modEq {g : Int} {n : Nat} (hn : 0 < n) (hg : Int.gcd g n = 1) :
    g * modInverse g n ≡ 1 [ZMOD n] := by
  have hn0 : (n : Int) ≠ 0 := by omega
  have hcast : ((g % n).toNat : Int) = g % n := Int.toNat_of_nonneg (Int.emod_nonneg g hn0)
  have hgcd : Nat.gcd (g % n).toNat n = 1 := by
    rw [← Int.gcd_natCast_natCast, hcast, Int.gcd_emod]
    exact hg
  have hbezout := Nat.gcd_eq_gcd_ab (g % n).toNat n
  rw [hgcd, hcast] at hbezout
  rw [modInverse, if_pos hg]
  calc g * (Nat.gcdA (g % n).toNat n % n)
      ≡ g % n * Nat.gcdA (g % n).toNat n [ZMOD n] :=
        (Int.mod_modEq g n).symm.mul (Int.mod_modEq _ _)
    _ ≡ 1 [ZMOD n] := Int.modEq_iff_dvd.mpr ⟨Nat.gcdB (g % n).toNat n, by
        rw [← Nat.cast_one, hbezout]; ring⟩

section Nonces

variable {p1 : Nat} (hp1 : 0 < p1)

theorem length_drawNonces (a : List Int) (ssnum : Nat) (last : Int) (rbi : List Nat) :
    (drawNonces p1 a ssnum last rbi).length = a.length := by
  fun_induction drawNonces <;> simp_all

include hp1

theorem drawNonces_nonneg (a : List Int) (ssnum : Nat) (last : Int) (rbi : List Nat) :
    ∀ v ∈ drawNonces p1 a ssnum last rbi, 0 ≤ v := by
  have hmod : ∀ m : Int, 0 ≤ m % p1 := fun m => Int.emod_nonneg m (by omega)
  fun_induction drawNonces with
  | case4 _ _ _ _ rbi _ _ _ ih => exact forall_mem_cons.mpr ⟨Int.natCast_nonneg _, ih⟩
  | _ => simp_all

omit hp1 in
/-- The last nonzero coefficient; zero if there is none. -/
def lastCoeff (a : List Int) : Int := (a.filter (· ≠ 0)).getLastD 0

omit hp1 in
/-- The last nonzero coefficient is invertible modulo `P - 1`, or its square does for the
others what the product with the inverse would do. -/
def Closes (p1 : Nat) (a : List Int) : Prop :=
  Int.gcd (lastCoeff a) p1 = 1 ∨
    ∀ ai ∈ (a.filter (· ≠ 0)).dropLast, (p1 : Int) ∣ ai * (lastCoeff a ^ 2 - 1)

omit hp1 in
theorem filter_cons_of_ne {ai : Int} (hai : ai ≠ 0) (a : List Int) :
    (ai :: a).filter (· ≠ 0) = ai :: a.filter (· ≠ 0) := filter_cons_of_pos (by simpa using hai)

omit hp1 in
theorem filter_eq_nil_of_countP (hn : a.countP (· ≠ 0) = 0) : a.filter (· ≠ 0) = [] := by
  rwa [countP_eq_length_filter, length_eq_zero_iff] at hn

omit hp1 in
theorem lastCoeff_cons_of_countP {ai : Int} (hai : ai ≠ 0) (hn : a.countP (· ≠ 0) ≠ 0) :
    lastCoeff (ai :: a) = lastCoeff a ∧ ((ai :: a).filter (· ≠ 0)).dropLast =
      ai :: (a.filter (· ≠ 0)).dropLast := by
  rw [lastCoeff, lastCoeff, filter_cons_of_ne hai]
  rw [countP_eq_length_filter] at hn
  obtain ⟨k, ks, hks⟩ := exists_cons_of_ne_nil (ne_nil_of_length_pos (Nat.pos_of_ne_zero hn))
  rw [hks]
  exact ⟨by simp, dropLast_cons_cons⟩

omit hp1 in
/-- **Nonces.** The value that closes the sum is multiplied by what `ModInverse` leaves of the
last nonzero coefficient. Whatever is drawn for the others, the sum comes out as if that were the
inverse if and only if it acts like the inverse on each of them. -/
theorem dot_drawNonces_iff (a : List Int) (last : Int) :
    (∀ rbi, dot a (drawNonces p1 a (a.countP (· ≠ 0)) last rbi) ≡
        lastCoeff a * modInverse (lastCoeff a) p1 * last [ZMOD p1]) ↔
      ∀ ai ∈ (a.filter (· ≠ 0)).dropLast,
        (p1 : Int) ∣ ai * (lastCoeff a * modInverse (lastCoeff a) p1 - 1) := by
  induction a generalizing last with
  | nil => simp [lastCoeff]
  | cons ai a ih =>
    by_cases hai : ai = 0
    · -- a zero coefficient takes a number that does not count
      subst hai
      have hfilter : ((0 : Int) :: a).filter (· ≠ 0) = a.filter (· ≠ 0) := by simp
      have hcount : ((0 : Int) :: a).countP (· ≠ 0) = a.countP (· ≠ 0) := by simp
      simp only [lastCoeff, hfilter, hcount, drawNonces, if_true, dot_cons, zero_mul, zero_add]
      rw [← lastCoeff, ← ih last]
      exact ⟨fun h rbi => h (0 :: rbi), fun h rbi => h rbi.tail⟩
    have hcount : (ai :: a).countP (· ≠ 0) = a.countP (· ≠ 0) + 1 :=
      countP_cons_of_pos (by simpa using hai)
    rw [hcount]
    simp only [drawNonces, if_neg hai]
    by_cases hn : a.countP (· ≠ 0) = 0
    · -- the last nonzero coefficient: the rest of the sum is zero
      have hnil := filter_eq_nil_of_countP hn
      have htail := (ih last).mpr fun x hx => by
        rw [hnil] at hx
        cases hx
      simp only [hn, Nat.zero_add, if_true, lastCoeff, filter_cons_of_ne hai, hnil] at htail ⊢
      simp only [getLastD_nil, getLastD_cons, zero_mul, dot_cons] at htail ⊢
      simp only [dropLast_singleton, not_mem_nil, false_imp_iff, implies_true, iff_true]
      intro rbi
      calc ai * (last * modInverse ai p1 % p1) + dot a (drawNonces p1 a 0 last rbi)
          ≡ ai * (last * modInverse ai p1) + 0 [ZMOD p1] :=
            ((Int.mod_modEq _ _).mul_left _).add (htail rbi)
        _ = ai * modInverse ai p1 * last := by ring
    · obtain ⟨hlast, hdrop⟩ := lastCoeff_cons_of_countP hai hn
      rw [hlast, hdrop, forall_mem_cons]
      simp only [if_neg (show ¬ a.countP (· ≠ 0) + 1 = 1 by omega), Nat.add_sub_cancel, dot_cons]
      generalize lastCoeff a * modInverse (lastCoeff a) p1 = e at ih ⊢
      -- what is left to close after the number `v`
      have hrest : ∀ v : Int, e * ((last - ai * v) % p1) ≡ e * (last - ai * v) [ZMOD p1] :=
        fun v => (Int.mod_modEq _ _).mul_left _
      constructor
      · intro h
        have hothers := (ih ((last - ai * 0) % p1)).mp fun rbi => by
          have h0 := h (0 :: rbi)
          simp only [headD_cons, tail_cons, Nat.cast_zero, mul_zero, sub_zero, zero_add] at h0 ⊢
          exact h0.trans (by simpa using (hrest 0).symm)
        refine ⟨?_, hothers⟩
        have h1 := h [1]
        simp only [headD_cons, tail_cons, Nat.cast_one] at h1
        have htail := ((ih ((last - ai * 1) % p1)).mpr hothers []).trans (hrest 1)
        have hsum := Int.modEq_iff_dvd.mp ((htail.add_left (ai * 1)).symm.trans h1)
        rwa [show e * last - (ai * 1 + e * (last - ai * 1)) = ai * (e - 1) by ring] at hsum
      · rintro ⟨hdvd, hothers⟩ rbi
        have htail := ((ih ((last - ai * (rbi.headD 0 : Nat)) % p1)).mpr hothers rbi.tail).trans
          (hrest _)
        refine (htail.add_left _).trans (Int.modEq_iff_dvd.mpr ?_)
        rw [show e * last - (ai * (rbi.headD 0 : Nat) + e * (last - ai * (rbi.headD 0 : Nat))) =
          ai * (e - 1) * (rbi.headD 0 : Nat) by ring]
        exact hdvd.mul_right _

theorem closes_iff (a : List Int) : Closes p1 a ↔
    ∀ rbi, dot a (drawNonces p1 a (a.countP (· ≠ 0)) 0 rbi) ≡ 0 [ZMOD p1] := by
  have hiff : (∀ rbi, dot a (drawNonces p1 a (a.countP (· ≠ 0)) 0 rbi) ≡
      lastCoeff a * modInverse (lastCoeff a) p1 * 0 [ZMOD p1]) ↔ _ := dot_drawNonces_iff a 0
  rw [mul_zero] at hiff
  rw [hiff, Closes]
  by_cases hgcd : Int.gcd (lastCoeff a) p1 = 1
  · have hone := Int.modEq_iff_dvd.mp (mul_modInverse_modEq hp1 hgcd).symm
    exact ⟨fun _ ai _ => hone.mul_left ai, fun _ => Or.inl hgcd⟩
  · rw [modInverse, if_neg hgcd, ← pow_two]
    exact or_iff_right hgcd

end Nonces

/-! ## Honest proofs -/

theorem toNat_sub_emod {n : Nat} (hn : 0 < n) (k c x : Nat) :
    Int.toNat (((k : Int) - c * x) % n) = response n k c x := by
  have hlt : c * x % n < n := Nat.mod_lt _ hn
  have hmod : ((k : Int) - c * x) ≡ ((k + (n - c * x % n) : Nat) : Int) [ZMOD n] := by
    refine Int.modEq_iff_dvd.mpr ⟨1 + c * x / n, ?_⟩
    have hdiv := Nat.div_add_mod (c * x) n
    zify [hlt.le] at hdiv ⊢
    linear_combination -hdiv
  rw [hmod, response]
  exact Int.toNat_natCast _

/-- The responses to the challenge `c`. -/
def responses (p1 c : Nat) (v : List Int) (x : List Bytes) : List Bytes :=
  (v.zip x).map fun vx => bytes (Int.toNat ((vx.1 - c * setBytes vx.2) % p1))

def product (p : Nat) (g : List Bytes) (v : List Nat) : ZMod p :=
  (zipWith (fun gi vi => (setBytes gi : ZMod p) ^ vi) g v).prod

section Honest

variable {p : Nat} [Fact p.Prime]

theorem product_responses (c : Nat) (g x : List Bytes) (v : List Int)
    (hg : ∀ gi ∈ g, (setBytes gi : ZMod p) ≠ 0) (hv : ∀ vi ∈ v, 0 ≤ vi) (hx : x.length = g.length)
    (hvg : v.length = g.length) :
    product p g (x.map setBytes) ^ c * product p g ((responses (p - 1) c v x).map setBytes) =
      product p g (v.map Int.toNat) := by
  induction g generalizing x v with
  | nil => simp [product]
  | cons gi g ih =>
    obtain ⟨xi, x, rfl⟩ := exists_cons_of_length_eq_add_one hx
    obtain ⟨vi, v, rfl⟩ := exists_cons_of_length_eq_add_one hvg
    obtain ⟨hgi, hg⟩ := forall_mem_cons.mp hg
    obtain ⟨hvi, hv⟩ := forall_mem_cons.mp hv
    have hrest := ih x v hg hv (by simpa using hx) (by simpa using hvg)
    lift vi to Nat using hvi
    have hp1 : 0 < p - 1 := Nat.sub_pos_of_lt (Fact.out (p := p.Prime)).one_lt
    have hhead := pow_response_mul hp1 (ZMod.pow_card_sub_one_eq_one hgi) vi c (setBytes xi)
    simp only [product, responses, zip_cons_cons, map_cons, zipWith_cons_cons,
      prod_cons, setBytes_bytes, toNat_sub_emod hp1, Int.toNat_natCast, mul_pow] at hrest ⊢
    rw [← hrest, ← hhead]
    ring

theorem dot_responses {p1 : Nat} (hp1 : 0 < p1) (c : Nat) (a v : List Int) (x : List Bytes)
    (hx : x.length = a.length) (hv : v.length = a.length) :
    dot a (numbers (responses p1 c v x)) ≡ dot a v - c * dot a (numbers x) [ZMOD p1] := by
  induction a generalizing x v with
  | nil => simp
  | cons ai a ih =>
    obtain ⟨xi, x, rfl⟩ := exists_cons_of_length_eq_add_one hx
    obtain ⟨vi, v, rfl⟩ := exists_cons_of_length_eq_add_one hv
    have hrest := ih v x (by simpa using hx) (by simpa using hv)
    have hnonneg : 0 ≤ (vi - c * setBytes xi) % p1 := Int.emod_nonneg _ (by omega)
    have hhead : ai * ((vi - c * setBytes xi) % p1) ≡ ai * (vi - c * setBytes xi) [ZMOD p1] :=
      (Int.mod_modEq _ _).mul_left _
    have hsum := hhead.add hrest
    simp only [responses, numbers, zip_cons_cons, map_cons, setBytes_bytes, dot_cons,
      Int.toNat_of_nonneg hnonneg] at hsum ⊢
    convert hsum using 1
    ring

end Honest

theorem natCast_foldl_product (p : Nat) (g : List Bytes) (s : List α) (f : α → Nat) (t : Nat) :
    (((g.zip s).foldl (fun t gs => t * exp (setBytes gs.1) (f gs.2) p % p) t : Nat) :
      ZMod p) = t * product p g (s.map f) := by
  rw [natCast_foldl_exp p]
  simp [product, zip, map_zipWith, zipWith_map_right]

theorem generateLinearEquationProof_eq (sum256 : Bytes → Bytes) (pub : PublicKey) (y : Bytes)
    (b : Int) {x g : List Bytes} (rbi : List Nat) (hx : x.length = g.length)
    (ha : g.length = a.length) :
    let v := drawNonces (pub.p - 1) a (a.countP (· ≠ 0)) 0 rbi
    let lp := generateLinearEquationProof sum256 y b a x g pub rbi
    lp.t = bytes ((g.zip v).foldl
        (fun t gv => t * exp (setBytes gv.1) gv.2.toNat pub.p % pub.p) 1) ∧
      lp.s = responses (pub.p - 1) (challenge sum256 pub.p (g.flatten ++ y ++ lp.t)) v x := by
  have hlen : ¬(x.length ≠ g.length ∨ g.length ≠ a.length) := by simp [hx, ha]
  simp only [generateLinearEquationProof, if_neg hlen]
  exact ⟨trivial, rfl⟩

/-- On an honest proof the verifier's first check passes, and the second one compares the
reduced sum with the product `-c * b`, which is not reduced. -/
theorem verifyLinearEquationProof_generate (sum256 : Bytes → Bytes) {pub : PublicKey}
    (hp : pub.p.Prime) {y : Bytes} {b : Int} {x g : List Bytes} (rbi : List Nat)
    (hx : x.length = g.length) (ha : g.length = a.length)
    (hg : ∀ gi ∈ g, (setBytes gi : ZMod pub.p) ≠ 0)
    (hy : (setBytes y : ZMod pub.p) = product pub.p g (x.map setBytes)) {lp : LinearEquationProof}
    (hlp : generateLinearEquationProof sum256 y b a x g pub rbi = lp) {c : Nat}
    (hc : challenge sum256 pub.p (g.flatten ++ y ++ lp.t) = c) :
    verifyLinearEquationProof sum256 lp y b a g pub = true ↔
      (dot a (drawNonces (pub.p - 1) a (a.countP (· ≠ 0)) 0 rbi) - c * dot a (numbers x)) %
        (pub.p - 1 : Nat) = -(c * (b % 2 ^ 64)) := by
  have : Fact pub.p.Prime := ⟨hp⟩
  have hp1 : 0 < pub.p - 1 := Nat.sub_pos_of_lt hp.one_lt
  obtain ⟨ht, hs⟩ := generateLinearEquationProof_eq sum256 pub y b rbi hx ha
  rw [hlp] at ht hs
  rw [hc] at hs
  have hlen : (drawNonces (pub.p - 1) a (a.countP (· ≠ 0)) 0 rbi).length = a.length :=
    length_drawNonces a _ 0 rbi
  have hT : linearT pub.p (setBytes y) c (g.zip lp.s) = setBytes lp.t := by
    rw [ht, setBytes_bytes]
    refine natCast_eq_of_lt (linearT_lt hp.pos _ _ _) (foldl_exp_lt hp.pos _ _ _ hp.one_lt) ?_
    rw [linearT, natCast_foldl_product, natCast_foldl_product, natCast_exp, hy, hs, Nat.cast_one,
      one_mul]
    exact product_responses c g x _ hg (drawNonces_nonneg hp1 a _ _ rbi) hx (hlen.trans ha.symm)
  have hlens : ¬(lp.s.length ≠ g.length ∨ g.length ≠ a.length) := by
    simp [hs, responses, length_drawNonces, hx, ha]
  simp only [verifyLinearEquationProof, if_neg hlens, hc, hT, ne_eq, not_true_eq_false, if_false]
  rw [decide_eq_true_eq, linearSum_eq, hs, (dot_responses hp1 _ a _ x (hx.trans ha) hlen).eq]

end GethComments.Zkp
