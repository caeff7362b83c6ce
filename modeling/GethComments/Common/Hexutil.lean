import GethComments.Lib.Hex

/-!
# Hexadecimal values in JSON

The types of package `common/hexutil` and the fixed byte arrays of package `common` as JSON
values. A text starts with `0x`; the empty text stands for zero and for no bytes.
-/

namespace GethComments.Hexutil

/-! ## Errors -/

inductive DecError where
  | invalid
  | withoutPrefix
  | oddLength
  | emptyNumber
  | leadingZero
  | uint64Range
  | big256Range
  /-- The length of the digits and of what was wanted, and the name of the type. -/
  | fixedLength (got want : Nat) (typname : String)
  deriving DecidableEq, Repr

def DecError.message : DecError → String
  | invalid => "invalid hex string"
  | withoutPrefix => "hex string without 0x prefix"
  | oddLength => "hex string of odd length"
  | emptyNumber => "hex string \"0x\""
  | leadingZero => "hex number with leading zero digits"
  | uint64Range => "hex number > 64 bits"
  | big256Range => "hex number > 256 bits"
  | fixedLength got want typname =>
    "hex string has length " ++ toString got ++ ", want " ++ toString want ++ " for " ++ typname

/-! ## Writing -/

/-- `MarshalText` of `Bytes`, `Address` and `Hash`. -/
def encode (b : Bytes) : List Char := '0' :: 'x' :: Hex.encode b

/-- `MarshalText` of `Uint64`. -/
def encodeUint64 (n : UInt64) : List Char :=
  '0' :: 'x' :: (if n = 0 then ['0'] else Hex.ofNat n.toNat)

/-- `EncodeBig`; the verb of the format puts the sign in front. -/
def encodeBig (n : Int) : List Char :=
  if n = 0 then ['0', 'x', '0']
  else (if n < 0 then ['-'] else []) ++ '0' :: 'x' :: Hex.ofNat n.natAbs

/-! ## Reading -/

def strip0x : List Char → Option (List Char)
  | '0' :: 'x' :: raw => some raw
  | '0' :: 'X' :: raw => some raw
  | _ => none

def checkText (input : List Char) : Except DecError (List Char) :=
  if input = [] then .ok []
  else
    match strip0x input with
    | none => .error .withoutPrefix
    | some raw => if raw.length % 2 ≠ 0 then .error .oddLength else .ok raw

def checkNumberText (input : List Char) : Except DecError (List Char) :=
  if input = [] then .ok []
  else
    match strip0x input with
    | none => .error .withoutPrefix
    | some raw =>
      if raw = [] then .error .emptyNumber
      else if raw.length > 1 ∧ raw.head? = some '0' then .error .leadingZero
      else .ok raw

/-- The number in at most `limit` digits, with the error of a longer one. -/
def unmarshalNumber (limit : Nat) (range : DecError) (input : List Char) : Except DecError Nat :=
  match checkNumberText input with
  | .error e => .error e
  | .ok raw =>
    if raw.length > limit then .error range
    else
      match Hex.toNat? raw with
      | none => .error .invalid
      | some n => .ok n

/-- `Uint64.UnmarshalText`. -/
def unmarshalUint64 (input : List Char) : Except DecError UInt64 :=
  (unmarshalNumber 16 .uint64Range input).map UInt64.ofNat

/-- `Big.UnmarshalText`. -/
def unmarshalBig (input : List Char) : Except DecError Nat := unmarshalNumber 64 .big256Range input

/-- `Bytes.UnmarshalText`. -/
def unmarshalBytes (input : List Char) : Except DecError Bytes :=
  match checkText input with
  | .error e => .error e
  | .ok raw =>
    match Hex.decode raw with
    | none => .error .invalid
    | some b => .ok b

/-- `UnmarshalFixedText` for `size` bytes. -/
def unmarshalFixed (size : Nat) (typname : String) (input : List Char) : Except DecError Bytes :=
  match checkText input with
  | .error e => .error e
  | .ok raw =>
    if raw.length / 2 ≠ size then .error (.fixedLength raw.length (2 * size) typname)
    else
      match Hex.decode raw with
      | none => .error .invalid
      | some b => .ok b

/-! ## Round trips -/

variable {n : Nat}

theorem checkNumberText_ofNat (hn : n ≠ 0) :
    checkNumberText ('0' :: 'x' :: Hex.ofNat n) = .ok (Hex.ofNat n) := by
  have hempty : Hex.ofNat n ≠ [] := fun h => hn (Hex.ofNat_eq_nil_iff.mp h)
  have hlead : ¬((Hex.ofNat n).length > 1 ∧ (Hex.ofNat n).head? = some '0') :=
    fun h => Hex.head_ofNat_ne_zero n h.2
  simp only [checkNumberText, strip0x, List.cons_ne_nil, if_false, if_neg hempty, if_neg hlead]

theorem unmarshalNumber_ofNat {limit : Nat} (range : DecError) (hn : n ≠ 0)
    (hlimit : n < 16 ^ limit) :
    unmarshalNumber limit range ('0' :: 'x' :: Hex.ofNat n) = .ok n := by
  have hlen : ¬(Hex.ofNat n).length > limit := Nat.not_lt.mpr (Hex.length_ofNat_le_iff.mpr hlimit)
  simp only [unmarshalNumber, checkNumberText_ofNat hn, if_neg hlen, Hex.toNat?_ofNat]

theorem unmarshalUint64_encode (n : UInt64) : unmarshalUint64 (encodeUint64 n) = .ok n := by
  unfold encodeUint64
  split
  case isTrue h =>
    rw [h]
    rfl
  case isFalse h =>
    have hn : n.toNat ≠ 0 := fun h0 => h (UInt64.toNat_inj.mp h0)
    rw [unmarshalUint64, unmarshalNumber_ofNat _ hn n.toNat_lt]
    exact congrArg Except.ok UInt64.ofNat_toNat

theorem unmarshalBig_encode (hn : n < 2 ^ 256) : unmarshalBig (encodeBig n) = .ok n := by
  unfold encodeBig
  split
  case isTrue h =>
    obtain rfl : n = 0 := by omega
    rfl
  case isFalse h =>
    rw [if_neg (by omega), List.nil_append, Int.natAbs_natCast]
    exact unmarshalNumber_ofNat _ (by omega) (lt_of_lt_of_eq hn (by decide))

theorem checkText_encode (b : Bytes) : checkText (encode b) = .ok (Hex.encode b) := by
  have heven : ¬(Hex.encode b).length % 2 ≠ 0 := by
    rw [Hex.length_encode]
    omega
  simp only [checkText, encode, strip0x, List.cons_ne_nil, if_false, if_neg heven]

theorem unmarshalBytes_encode (b : Bytes) : unmarshalBytes (encode b) = .ok b := by
  simp only [unmarshalBytes, checkText_encode, Hex.decode_encode_some]

theorem unmarshalFixed_encode {size : Nat} (typname : String) {b : Bytes} (h : b.length = size) :
    unmarshalFixed size typname (encode b) = .ok b := by
  have hlen : ¬(Hex.encode b).length / 2 ≠ size := by
    rw [Hex.length_encode, h]
    omega
  simp only [unmarshalFixed, checkText_encode, if_neg hlen, Hex.decode_encode_some]

end GethComments.Hexutil
