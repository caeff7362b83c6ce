import Mathlib.Data.Nat.Digits.Lemmas

/-!
# Byte strings and natural numbers

Big-endian numbers as `math/big` reads and writes them: `setBytes` accepts any
byte string, `bytes` writes the shortest one, so zero is the empty string.

* `setBytes_bytes`: reading back what was written gives the number;
* `bytes_injective`: different numbers are written differently;
* `setBytes_inj`: strings of one length are read differently.
-/

namespace GethComments

open List

abbrev Bytes := List UInt8

/-- The one that membership in lists of byte strings is decided with. -/
instance lawfulBEqBytes : LawfulBEq Bytes := inferInstance

/-- `new(big.Int).SetBytes(b)`. -/
def setBytes (b : Bytes) : Nat := Nat.ofDigits 256 (b.reverse.map UInt8.toNat)

/-- `x.Bytes()`: no leading zero byte. -/
def bytes (n : Nat) : Bytes := ((Nat.digits 256 n).map UInt8.ofNat).reverse

@[simp] theorem setBytes_nil : setBytes [] = 0 := rfl

@[simp] theorem bytes_zero : bytes 0 = [] := by simp [bytes]

theorem setBytes_bytes (n : Nat) : setBytes (bytes n) = n := by
  have hd : ∀ d ∈ Nat.digits 256 n, (UInt8.ofNat d).toNat = d := by
    intro d hd
    have hlt : d < 256 := Nat.digits_lt_base (by omega) hd
    simp [Nat.mod_eq_of_lt hlt]
  have hm : ((Nat.digits 256 n).map UInt8.ofNat).map UInt8.toNat = Nat.digits 256 n := by
    rw [map_map]
    conv_rhs => rw [← map_id (Nat.digits 256 n)]
    exact map_congr_left hd
  rw [setBytes, bytes, reverse_reverse, hm, Nat.ofDigits_digits]

theorem bytes_injective : Function.Injective bytes := Function.LeftInverse.injective setBytes_bytes

theorem setBytes_inj {b b' : Bytes} (hlen : b.length = b'.length) (h : setBytes b = setBytes b') :
    b = b' := by
  have hdigits : ∀ b : Bytes, ∀ d ∈ b.reverse.map UInt8.toNat, d < 256 := by
    intro b d hd
    obtain ⟨x, -, rfl⟩ := mem_map.mp hd
    exact x.toNat_lt
  have hmap := Nat.ofDigits_inj_of_len_eq (by decide : 1 < 256) (by simpa using hlen)
    (hdigits b) (hdigits b') h
  exact reverse_injective
    (map_injective_iff.mpr (fun _ _ => UInt8.toNat_inj.mp) hmap)

theorem setBytes_replicate_append (k : Nat) (b : Bytes) :
    setBytes (replicate k 0 ++ b) = setBytes b := by
  induction k with
  | zero => rfl
  | succ k ih => simp [replicate_succ, setBytes, Nat.ofDigits_append]

theorem length_bytes_le_iff {n k : Nat} : (bytes n).length ≤ k ↔ n < 256 ^ k := by
  rw [bytes, length_reverse, length_map, Nat.digits_length_le_iff (by omega)]

theorem head_digits_ne {α : Type*} {f : Nat → α} {zero : α} {base : Nat} (hbase : 1 < base)
    (hf : ∀ d < base, d ≠ 0 → f d ≠ zero) (n : Nat) :
    ((Nat.digits base n).map f).reverse.head? ≠ some zero := by
  rcases Nat.eq_zero_or_pos n with rfl | hn
  · simp
  · have hne : Nat.digits base n ≠ [] := Nat.digits_ne_nil_iff_ne_zero.mpr (by omega)
    rw [head?_reverse, getLast?_map, getLast?_eq_some_getLast hne]
    intro h
    exact hf _ (Nat.digits_lt_base hbase (getLast_mem hne))
      (Nat.getLast_digit_ne_zero base (by omega)) (Option.some.inj h)

theorem head_bytes_ne_zero (n : Nat) : (bytes n).head? ≠ some 0 := by
  refine head_digits_ne (by omega) (fun d hd hne h => hne ?_) n
  have hzero := congrArg UInt8.toNat h
  rwa [UInt8.toNat_ofNat', Nat.mod_eq_of_lt hd] at hzero

theorem bytes_setBytes {b : Bytes} (h : b.head? ≠ some 0) : bytes (setBytes b) = b := by
  have hdigits : Nat.digits 256 (setBytes b) = b.reverse.map UInt8.toNat := by
    refine Nat.digits_ofDigits 256 (by omega) _ (fun d hd => ?_) (fun hne hzero => h ?_)
    · obtain ⟨x, -, rfl⟩ := mem_map.mp hd
      exact x.toNat_lt
    · have hlast : (b.reverse.map UInt8.toNat).getLast? = some 0 := by
        rw [getLast?_eq_some_getLast hne, hzero]
      rw [getLast?_map, getLast?_reverse, Option.map_eq_some_iff] at hlast
      obtain ⟨x, hx, hx0⟩ := hlast
      rw [hx, UInt8.toNat_inj.mp (hx0.trans UInt8.toNat_zero.symm)]
  rw [bytes, hdigits, map_map]
  have hid : (UInt8.ofNat ∘ UInt8.toNat) = id := by
    funext x
    simp
  rw [hid, map_id, reverse_reverse]

end GethComments
