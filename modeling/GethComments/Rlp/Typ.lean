import GethComments.Types.Rlp

/-!
# Types and values of package `rlp`

The Go types that package `rlp` writes and reads by reflection, and their values. Byte slices and
byte arrays are types of their own (`isByte`), so the elements of `slice` and `array` are other
than bytes. A field of a structure may have the tag `nil`, which is only for pointers, and the last
one the tag `tail`, which is only for slices.

* `encode`: what an encoding is, item by item.
-/

namespace GethComments.Rlp

/-- The kinds of values in an input. -/
inductive ValueKind where
  | byte
  | string
  | list
  deriving DecidableEq, Repr

namespace ValueKind

def toString : ValueKind → String
  | byte => "Byte"
  | string => "String"
  | list => "List"

end ValueKind

instance neZeroWord : NeZero (2 ^ 64) := ⟨by decide⟩

inductive Width where
  | w8
  | w16
  | w32
  | w64
  deriving DecidableEq

def Width.bits : Width → Nat
  | w8 => 8
  | w16 => 16
  | w32 => 32
  | w64 => 64

/-- How a nil pointer is written. -/
inductive NilKind where
  | string
  | list
  deriving DecidableEq

def NilKind.kind : NilKind → ValueKind
  | string => .string
  | list => .list

mutual

inductive Typ where
  | uint (w : Width)
  | bool
  | string
  /-- A slice of bytes with its name, `[]uint8` where it has none. -/
  | bytes (name : String)
  /-- A pointer to a big integer. -/
  | bigInt
  /-- An array of bytes with its name, such as `common.Address`. -/
  | byteArray (name : String) (n : Nat)
  | slice (elem : Typ)
  | array (n : Nat) (elem : Typ)
  | struct (name : String) (fields : Fields)
  | ptr (elem : Typ)

/-- The exported fields of a structure. -/
inductive Fields where
  | nil
  | cons (name : String) (typ : Typ) (rest : Fields)
  /-- A pointer with one of the tags `nil`, `nilString` and `nilList`. -/
  | nilPtr (name : String) (kind : NilKind) (elem : Typ) (rest : Fields)
  /-- A slice with the tag `tail`. -/
  | tail (name : String) (elem : Typ)

end

/-- The name of a type in error messages. -/
def Typ.goName : Typ → String
  | .uint w => "uint" ++ toString w.bits
  | .bool => "bool"
  | .string => "string"
  | .bytes name => name
  | .bigInt => "*big.Int"
  | .byteArray name _ => name
  | .slice t => "[]" ++ t.goName
  | .array n t => "[" ++ toString n ++ "]" ++ t.goName
  | .struct name _ => name
  | .ptr t => "*" ++ t.goName

/-- `defaultNilKind`. -/
def Typ.defaultNilKind : Typ → NilKind
  | .uint _ | .bool | .string | .bytes _ | .byteArray _ _ => .string
  | _ => .list

/-! ## Values -/

mutual

/-- A nil slice and an empty one are the same value. -/
def Typ.Val : Typ → Type
  | .uint w => Fin (2 ^ w.bits)
  | .bool => Bool
  | .string => Bytes
  | .bytes _ => Bytes
  | .bigInt => Option Int
  | .byteArray _ n => { b : Bytes // b.length = n }
  | .slice t => List t.Val
  | .array n t => { l : List t.Val // l.length = n }
  | .struct _ fs => fs.Val
  | .ptr t => Option t.Val

def Fields.Val : Fields → Type
  | .nil => Unit
  | .cons _ t fs => t.Val × fs.Val
  | .nilPtr _ _ t fs => Option t.Val × fs.Val
  | .tail _ t => List t.Val

end

mutual

def Typ.NonNeg : (t : Typ) → t.Val → Prop
  | .bigInt, v => ∀ n, v = some n → 0 ≤ n
  | .slice t, vs => ∀ v, List.Mem v vs → t.NonNeg v
  | .array _ t, vs => ∀ v ∈ vs.val, t.NonNeg v
  | .struct _ fs, v => fs.NonNeg v
  | .ptr t, v => ∀ u, v = some u → t.NonNeg u
  | .uint _, _ | .bool, _ | .string, _ | .bytes _, _ | .byteArray _ _, _ => True

def Fields.NonNeg : (fs : Fields) → fs.Val → Prop
  | .nil, _ => True
  | .cons _ t fs, v => t.NonNeg v.1 ∧ fs.NonNeg v.2
  | .nilPtr _ _ t fs, v => (∀ u, v.1 = some u → t.NonNeg u) ∧ fs.NonNeg v.2
  | .tail _ t, vs => ∀ v, List.Mem v vs → t.NonNeg v

end

/-! ## Encodings -/

def NilKind.encode : NilKind → Bytes
  | .string => [0x80]
  | .list => [0xc0]

mutual

def Typ.encode : (t : Typ) → t.Val → Bytes
  | .uint _, v => encodeUint v.val
  | .bool, v => encodeUint (cond v 1 0)
  | .string, v => encodeString v
  | .bytes _, v => encodeString v
  | .bigInt, v => encodeUint (v.getD 0).toNat
  | .byteArray _ _, v => encodeString v.val
  | .slice t, vs => encodeList (List.map (fun v => t.encode v) vs)
  | .array _ t, vs => encodeList (vs.val.map fun v => t.encode v)
  | .struct _ fs, v => encodeList (fs.encode v)
  | .ptr t, v =>
    match v with
    | none => t.defaultNilKind.encode
    | some v => t.encode v

def Fields.encode : (fs : Fields) → fs.Val → List Bytes
  | .nil, _ => []
  | .cons _ t fs, v => t.encode v.1 :: fs.encode v.2
  | .nilPtr _ k t fs, v =>
    (match v.1 with
      | none => k.encode
      | some v => t.encode v) :: fs.encode v.2
  | .tail _ t, vs => List.map (fun v => t.encode v) vs

end

theorem Fields.encode_nilPtr {name : String} {k : NilKind} {t : Typ} {fs : Fields}
    (u : Option t.Val) (vs : fs.Val) : (Fields.nilPtr name k t fs).encode (u, vs) =
      u.elim k.encode (fun v => t.encode v) :: fs.encode vs := by
  cases u <;> rfl

/-! ## Values that are read back -/

/-- Not the encoding of an empty string or list, which stands for a nil pointer. -/
def NotEmpty (enc : Bytes) : Prop := enc ≠ [0x80] ∧ enc ≠ [0xc0]

mutual

/-- No array of one byte is zero; no pointer is nil, except where a tag makes it nil, and there
none points to a value that is written as an empty one. -/
def Typ.Regular : (t : Typ) → t.Val → Prop
  | .bigInt, v => v ≠ none
  | .byteArray _ _, v => v.val ≠ [0]
  | .slice t, vs => ∀ v, List.Mem v vs → t.Regular v
  | .array _ t, vs => ∀ v ∈ vs.val, t.Regular v
  | .struct _ fs, v => fs.Regular v
  | .ptr t, v => ∃ u, v = some u ∧ t.Regular u
  | .uint _, _ | .bool, _ | .string, _ | .bytes _, _ => True

def Fields.Regular : (fs : Fields) → fs.Val → Prop
  | .nil, _ => True
  | .cons _ t fs, v => t.Regular v.1 ∧ fs.Regular v.2
  | .nilPtr _ _ t fs, v => (∀ u, v.1 = some u → t.Regular u ∧ NotEmpty (t.encode u)) ∧
      fs.Regular v.2
  | .tail _ t, vs => ∀ v, List.Mem v vs → t.Regular v

end

end GethComments.Rlp
