import GethComments.Crypto.Sha256

/-!
# RLP strings and hashes

The encoder of package `rlp` on byte strings, unsigned numbers and lists of
encoded items, and `rlpHash`. Keccak-256 comes from a library outside the
repository and SHA-256 from the standard library; both are kept as parameters,
collected in the class `HashFns`.
-/

namespace GethComments

class HashFns where
  /-- `sha3.NewLegacyKeccak256`. -/
  keccak256 : Bytes → Bytes
  /-- `sha256.Sum256`. -/
  sum256 : Bytes → Bytes

/-- Hash functions to run the model with: SHA-256 itself, and in the place of
Keccak-256 the identity, which has no collisions. -/
abbrev HashFns.plain : HashFns := ⟨id, Sha256.sum256⟩

abbrev Hash := Bytes

abbrev Address := Bytes

/-- `common.Address{}`. -/
def zeroAddress : Address := List.replicate 20 0

namespace Rlp

/-- Sizes are unsigned 64-bit numbers. -/
abbrev sizeBound : Nat := 2 ^ 64

/-- `puthead`: sizes below 56 are part of the tag. -/
def putHead (smalltag largetag size : Nat) : Bytes :=
  if size < 56 then [UInt8.ofNat (smalltag + size)]
  else UInt8.ofNat (largetag + (bytes size).length) :: bytes size

/-- `encodeString`: a single byte up to `0x7f` is its own encoding. -/
def encodeString (b : Bytes) : Bytes :=
  match b with
  | [x] => if x ≤ 0x7f then [x] else putHead 0x80 0xb7 1 ++ [x]
  | _ => putHead 0x80 0xb7 b.length ++ b

/-- Unsigned integers and non-negative big integers. -/
def encodeUint (n : Nat) : Bytes := encodeString (bytes n)

def encodeList (items : List Bytes) : Bytes :=
  putHead 0xc0 0xf7 items.flatten.length ++ items.flatten

theorem encodeString_cases (b : Bytes) :
    (∃ x : UInt8, b = [x] ∧ x.toNat < 0x80 ∧ encodeString b = [x]) ∨
      (¬(b.length = 1 ∧ (b.headD 0).toNat < 128) ∧
        encodeString b = putHead 0x80 0xb7 b.length ++ b) := by
  match b with
  | [] => exact Or.inr ⟨by simp, rfl⟩
  | [x] =>
    by_cases hx : x ≤ 0x7f
    · have hlt : x.toNat < 0x80 := by
        rw [UInt8.le_iff_toNat_le] at hx
        exact Nat.lt_succ_of_le hx
      exact Or.inl ⟨x, rfl, hlt, by rw [encodeString, if_pos hx]⟩
    · have hge : ¬x.toNat < 0x80 := by
        rw [UInt8.le_iff_toNat_le] at hx
        exact fun h => hx (Nat.le_of_lt_succ h)
      exact Or.inr ⟨by simpa using hge, by rw [encodeString, if_neg hx]; rfl⟩
  | x :: y :: b => exact Or.inr ⟨by simp, rfl⟩

theorem length_le_encodeString (v : Bytes) : v.length ≤ (encodeString v).length := by
  rcases encodeString_cases v with ⟨x, rfl, -, heq⟩ | ⟨-, heq⟩
  · simp [heq]
  · simp [heq]

theorem length_encodeList (items : List Bytes) :
    items.flatten.length < (encodeList items).length := by
  unfold encodeList putHead
  split <;> simp

theorem toNat_ofNat_tag {n : Nat} (h : n < 256) : (UInt8.ofNat n).toNat = n := by
  rw [UInt8.toNat_ofNat', Nat.mod_eq_of_lt h]

theorem length_bytes_size {n : Nat} (hn : n < 2 ^ 64) (h56 : 56 ≤ n) :
    1 ≤ (bytes n).length ∧ (bytes n).length ≤ 8 := by
  refine ⟨?_, length_bytes_le_iff.mpr (by simpa using hn)⟩
  by_contra hlt
  have hzero := (@length_bytes_le_iff n 0).mp (by omega)
  omega

end Rlp

end GethComments
