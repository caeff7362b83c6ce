import GethComments.Lib.BigEndian

/-!
# Hexadecimal text

Numbers without leading zeros and byte strings with two digits for each byte, written in lower
case and read in either case.

* `toNat?_ofNat`: numbers are read back;
* `toNat?_of_digits`: every text of digits is a number;
* `decode_encode_some`: byte strings are read back.
-/

namespace GethComments.Hex

open List

/-! ## Digits -/

def digitChar (d : Nat) : Char := Char.ofNat (if d < 10 then 48 + d else 87 + d)

def nibble (c : Char) : Option Nat :=
  if 48 ≤ c.toNat ∧ c.toNat ≤ 57 then some (c.toNat - 48)
  else if 65 ≤ c.toNat ∧ c.toNat ≤ 70 then some (c.toNat - 55)
  else if 97 ≤ c.toNat ∧ c.toNat ≤ 102 then some (c.toNat - 87)
  else none

theorem nibble_lt {c : Char} {d : Nat} (h : nibble c = some d) : d < 16 := by
  unfold nibble at h
  split_ifs at h <;> cases h <;> omega

theorem nibble_digitChar {d : Nat} (h : d < 16) : nibble (digitChar d) = some d := by
  have hall : ∀ d : Fin 16, nibble (digitChar d) = some d.val := by decide
  exact hall ⟨d, h⟩

theorem digitChar_ne_zero {d : Nat} (h : d < 16) (hd : d ≠ 0) : digitChar d ≠ '0' := by
  have hall : ∀ d : Fin 16, d.val ≠ 0 → digitChar d ≠ '0' := by decide
  exact hall ⟨d, h⟩ hd

/-! ## Numbers -/

/-- The digits of a number; zero has none. -/
def ofNat (n : Nat) : List Char := (Nat.digits 16 n).reverse.map digitChar

def toNat? (text : List Char) : Option Nat := text.foldlM (fun n c => (nibble c).map (16 * n + ·)) 0

theorem foldlM_digits (ds : List Nat) (h : ∀ d ∈ ds, d < 16) :
    (ds.reverse.map digitChar).foldlM (fun n c => (nibble c).map (16 * n + ·)) 0 =
      some (Nat.ofDigits 16 ds) := by
  induction ds with
  | nil => rfl
  | cons d ds ih =>
    have hd : d < 16 := h d mem_cons_self
    rw [reverse_cons, map_append, foldlM_append,
      ih fun x hx => h x (mem_cons_of_mem d hx)]
    simp [nibble_digitChar hd, Nat.ofDigits_cons, Nat.add_comm]

theorem toNat?_ofNat (n : Nat) : toNat? (ofNat n) = some n := by
  rw [toNat?, ofNat, foldlM_digits _ fun d hd => Nat.digits_lt_base (by omega) hd,
    Nat.ofDigits_digits]

theorem foldlM_nibble {text : List Char} (h : ∀ c ∈ text, (nibble c).isSome = true) (n : Nat) :
    ∃ m, text.foldlM (fun n c => (nibble c).map (16 * n + ·)) n = some m ∧
      m < 16 ^ text.length * (n + 1) := by
  induction text generalizing n with
  | nil => exact ⟨n, rfl, by simp⟩
  | cons c text ih =>
    obtain ⟨d, hd⟩ := Option.isSome_iff_exists.mp (h c mem_cons_self)
    have hlt := nibble_lt hd
    obtain ⟨m, hm, hbound⟩ := ih (fun x hx => h x (mem_cons_of_mem c hx)) (16 * n + d)
    refine ⟨m, by simpa [hd] using hm, lt_of_lt_of_le hbound ?_⟩
    rw [length_cons, pow_succ, mul_assoc]
    exact Nat.mul_le_mul_left _ (by omega)

theorem toNat?_of_digits {text : List Char} (h : ∀ c ∈ text, (nibble c).isSome = true) :
    ∃ m, toNat? text = some m ∧ m < 16 ^ text.length := by
  obtain ⟨m, hm, hbound⟩ := foldlM_nibble h 0
  exact ⟨m, hm, by simpa using hbound⟩

theorem length_ofNat_le_iff {n k : Nat} : (ofNat n).length ≤ k ↔ n < 16 ^ k := by
  rw [ofNat, length_map, length_reverse, Nat.digits_length_le_iff (by omega)]

theorem ofNat_eq_nil_iff {n : Nat} : ofNat n = [] ↔ n = 0 := by
  simp [ofNat, Nat.digits_eq_nil_iff_eq_zero]

theorem head_ofNat_ne_zero (n : Nat) : (ofNat n).head? ≠ some '0' := by
  rw [ofNat, map_reverse]
  exact head_digits_ne (by omega) (fun _ => digitChar_ne_zero) n

/-! ## Byte strings -/

def encode (b : Bytes) : List Char :=
  b.flatMap fun x => [digitChar (x.toNat / 16), digitChar (x.toNat % 16)]

def decode : List Char → Option Bytes
  | [] => some []
  | [_] => none
  | c :: d :: text => do
    let high ← nibble c
    let low ← nibble d
    let b ← decode text
    some (UInt8.ofNat (16 * high + low) :: b)

theorem length_encode (b : Bytes) : (encode b).length = 2 * b.length := by
  induction b with
  | nil => rfl
  | cons x b ih =>
    rw [encode, flatMap_cons, length_append, ← encode, ih, length_cons]
    simp only [length_cons, length_nil]
    omega

theorem decode_encode_some (b : Bytes) : decode (encode b) = some b := by
  induction b with
  | nil => rfl
  | cons x b ih =>
    have hx := x.toNat_lt
    have hhigh := nibble_digitChar (show x.toNat / 16 < 16 by omega)
    have hlow := nibble_digitChar (show x.toNat % 16 < 16 by omega)
    have hbyte : UInt8.ofNat (16 * (x.toNat / 16) + x.toNat % 16) = x := by
      rw [Nat.div_add_mod, UInt8.ofNat_toNat]
    rw [encode, flatMap_cons, ← encode, cons_append, cons_append, nil_append,
      decode, hhigh, hlow, ih]
    exact congrArg (fun y => some (y :: b)) hbyte

end GethComments.Hex
