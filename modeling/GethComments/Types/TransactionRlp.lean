import GethComments.Rlp.RoundTrip
import GethComments.Types.Transaction

/-!
# Decoding transactions

`DecodeRLP` of a transaction: package `rlp` on the structure `txdata`.

* `decodeBytes_encodeRLP`: a transaction is read back from its encoding.
-/

namespace GethComments.Transaction

open Rlp List

/-! ## The fields of `txdata` -/

/-- The names of the fields of type `*hexutil.Bytes`. -/
def hexFields : List String := [
  "ErpkC1", "ErpkC2", "EspkC1", "EspkC2", "CMRpk", "CMSpk", "ErpkEPs0", "ErpkEPs1", "ErpkEPs2",
  "ErpkEPs3", "ErpkEPt", "EspkEPs0", "EspkEPs1", "EspkEPs2", "EspkEPs3", "EspkEPt", "EvSC1",
  "EvSC2", "EvRC1", "EvRC2", "CmS", "CmR", "CMsFPC", "CMsFPZ1", "CMsFPZ2", "CMrFPC", "CMrFPZ1",
  "CMrFPZ2", "EvsBsC1", "EvsBsC2", "EvOC1", "EvOC2", "CmO", "EvOEPs0", "EvOEPs1", "EvOEPs2",
  "EvOEPs3", "EvOEPt", "BPC", "BPRV", "BPRR", "BPSV", "BPSR", "BPSOr", "EpkrC1", "EpkrC2",
  "EpkpC1", "EpkpC2", "SigM", "SigMHash", "SigR", "SigS", "CmV", "CmSRC1", "CmSRC2", "CmRRC1",
  "CmRRC2"]

def hexPtr (name : String) (fs : Fields) : Fields := .cons name (.ptr (.bytes "hexutil.Bytes")) fs

/-- The fields after them. -/
def lastFields : Fields :=
  .cons "V" .bigInt (.cons "R" .bigInt (.cons "S" .bigInt (.cons "PK" (.bytes "[]uint8") .nil)))

def txFields : Fields :=
  .cons "AccountNonce" (.uint .w64) (.cons "Price" .bigInt (.cons "GasLimit" (.uint .w64)
    (.nilPtr "Recipient" .string (.byteArray "common.Address" 20) (.cons "Amount" .bigInt
      (.cons "Payload" (.bytes "[]uint8") (.cons "ID" (.uint .w64)
        (hexFields.foldr hexPtr lastFields)))))))

def txdata : Typ := .struct "types.txdata" txFields

/-- The values of the fields of type `*hexutil.Bytes`, and of those after them. -/
def splitHex {fs : Fields} : (names : List String) → (names.foldr hexPtr fs).Val →
    List Bytes × fs.Val
  | [], v => ([], v)
  | _ :: names, v => ((v.1.getD [] : Bytes) :: (splitHex names v.2).1, (splitHex names v.2).2)

def ofVal (v : txFields.Val) : Transaction :=
  match v with
  | (accountNonce, price, gasLimit, recipient, amount, payload, id, v) =>
    match splitHex hexFields v with
    | (bs, v, r, s, pk, _) =>
      let hex (i : Nat) : Bytes := bs.getD i []
      {
        accountNonce := ⟨⟨accountNonce⟩⟩, price := (price.getD 0).toNat, gasLimit := ⟨⟨gasLimit⟩⟩,
        recipient := recipient.map (·.val), amount := amount.getD 0, payload, id := ⟨⟨id⟩⟩,
        erpkC1 := hex 0, erpkC2 := hex 1, espkC1 := hex 2, espkC2 := hex 3, cmRpk := hex 4,
        cmSpk := hex 5, erpkEPs0 := hex 6, erpkEPs1 := hex 7, erpkEPs2 := hex 8,
        erpkEPs3 := hex 9, erpkEPt := hex 10, espkEPs0 := hex 11, espkEPs1 := hex 12,
        espkEPs2 := hex 13, espkEPs3 := hex 14, espkEPt := hex 15, evSC1 := hex 16,
        evSC2 := hex 17, evRC1 := hex 18, evRC2 := hex 19, cmS := hex 20, cmR := hex 21,
        cmsFPC := hex 22, cmsFPZ1 := hex 23, cmsFPZ2 := hex 24, cmrFPC := hex 25,
        cmrFPZ1 := hex 26, cmrFPZ2 := hex 27, evsBsC1 := hex 28, evsBsC2 := hex 29,
        evOC1 := hex 30, evOC2 := hex 31, cmO := hex 32, evOEPs0 := hex 33, evOEPs1 := hex 34,
        evOEPs2 := hex 35, evOEPs3 := hex 36, evOEPt := hex 37, bpC := hex 38, bpRV := hex 39,
        bpRR := hex 40, bpSV := hex 41, bpSR := hex 42, bpSOr := hex 43, epkrC1 := hex 44,
        epkrC2 := hex 45, epkpC1 := hex 46, epkpC2 := hex 47, sigM := hex 48, sigMHash := hex 49,
        sigR := hex 50, sigS := hex 51, cmV := hex 52, cmSRC1 := hex 53, cmSRC2 := hex 54,
        cmRRC1 := hex 55, cmRRC2 := hex 56, v := (v.getD 0).toNat, r := (r.getD 0).toNat,
        s := (s.getD 0).toNat, pk }

/-- `rlp.DecodeBytes` into a transaction. `DecodeRLP` looks at the header first, for the size of
the transaction; the stream keeps it. There is no loop, so that the fuel does not matter. -/
def decodeBytes (input : Bytes) : Option (Except ReadError Transaction) :=
  (Rlp.decodeBytes (input.length + 1) txdata input).map fun res =>
    (res.mapError (·.inTarget "types.Transaction")).map ofVal

/-! ## Round trip -/

/-- What the encoder needs: an amount that is not negative, as the encoder of big integers
has no negative ones, an address of 20 bytes, which its type ensures, and a size within 64
bits. -/
structure Encodable (tx : Transaction) : Prop where
  amount : 0 ≤ tx.amount
  recipient : ∀ a, tx.recipient = some a → a.length = 20
  size : tx.rlpFields.flatten.length < sizeBound

section Hex

variable {fs : Fields} {v : fs.Val}

/-- The other way round. -/
def joinHex (v : fs.Val) : (names : List String) → List Bytes → (names.foldr hexPtr fs).Val
  | [], _ => v
  | _ :: names, bs => ((some (bs.headD []) : Option Bytes), joinHex v names bs.tail)

theorem splitHex_joinHex {names : List String} {bs : List Bytes} (h : bs.length = names.length) :
    splitHex names (joinHex v names bs) = (bs, v) := by
  induction names generalizing bs with
  | nil =>
    rw [length_eq_zero_iff.mp h]
    rfl
  | cons name names ih =>
    obtain ⟨b, bs, rfl⟩ := exists_cons_of_length_eq_add_one h
    have htail := @ih bs (by simpa using h)
    simp only [splitHex, joinHex, headD_cons, tail_cons]
    rw [htail]
    rfl

theorem encode_joinHex {names : List String} {bs : List Bytes} (h : bs.length = names.length) :
    (names.foldr hexPtr fs).encode (joinHex v names bs) = bs.map encodeString ++ fs.encode v := by
  induction names generalizing bs with
  | nil =>
    rw [length_eq_zero_iff.mp h]
    rfl
  | cons name names ih =>
    obtain ⟨b, bs, rfl⟩ := exists_cons_of_length_eq_add_one h
    exact congrArg _ (@ih bs (by simpa using h))

theorem nonNeg_joinHex (h : fs.NonNeg v) (names : List String) (bs : List Bytes) :
    (names.foldr hexPtr fs).NonNeg (joinHex v names bs) := by
  induction names generalizing bs with
  | nil => exact h
  | cons name names ih => exact ⟨fun _ _ => trivial, ih bs.tail⟩

theorem regular_joinHex (h : fs.Regular v) (names : List String) (bs : List Bytes) :
    (names.foldr hexPtr fs).Regular (joinHex v names bs) := by
  induction names generalizing bs with
  | nil => exact h
  | cons name names ih => exact ⟨⟨_, rfl, trivial⟩, ih bs.tail⟩

end Hex

theorem notEmpty_encodeString {b : Bytes} (h : b.length = 20) : NotEmpty (encodeString b) := by
  rcases encodeString_cases b with ⟨x, rfl, -, -⟩ | ⟨-, henc⟩
  · cases h
  · constructor <;> intro heq
    · have hlen := congrArg length (henc.symm.trans heq)
      simp [h] at hlen
    · have hlen := congrArg length (henc.symm.trans heq)
      simp [h] at hlen

def lastVal (tx : Transaction) : lastFields.Val :=
  ((some (tx.v : Int) : Option Int), (some (tx.r : Int) : Option Int),
    (some (tx.s : Int) : Option Int), tx.pk, ())

/-- The values of the fields. -/
def toVal (tx : Transaction) (h : ∀ a, tx.recipient = some a → a.length = 20) : txFields.Val :=
  (tx.accountNonce.toFin, (some (tx.price : Int) : Option Int), tx.gasLimit.toFin,
    tx.recipient.pmap Subtype.mk h, (some tx.amount : Option Int), tx.payload, tx.id.toFin,
    joinHex tx.lastVal hexFields tx.hexBytes)

variable {tx : Transaction}

theorem ofVal_toVal (h : ∀ a, tx.recipient = some a → a.length = 20) : ofVal (tx.toVal h) = tx := by
  have hto : ∀ (a : Option Address) (h : ∀ x, a = some x → x.length = 20),
      (a.pmap Subtype.mk h).map (·.val) = a := by
    intro a h
    cases a <;> rfl
  have hsplit : splitHex hexFields (joinHex tx.lastVal hexFields tx.hexBytes) =
      (tx.hexBytes, tx.lastVal) := splitHex_joinHex rfl
  simp only [ofVal, toVal, hsplit]
  exact congrArg (fun a => { tx with recipient := a }) (hto tx.recipient h)

theorem encode_toVal (h : ∀ a, tx.recipient = some a → a.length = 20) :
    txFields.encode (tx.toVal h) = tx.rlpFields := by
  have hhex : (hexFields.foldr hexPtr lastFields).encode
      (joinHex tx.lastVal hexFields tx.hexBytes) =
      tx.hexBytes.map encodeString ++ lastFields.encode tx.lastVal := encode_joinHex rfl
  simp only [txFields, toVal, Typ.encode, Fields.encode, hhex, rlpFields]
  generalize tx.recipient = a at h ⊢
  cases a <;> rfl

theorem nonNeg_toVal (h : tx.Encodable) : txFields.NonNeg (tx.toVal h.recipient) := by
  have hnat : ∀ (n : Nat) (m : Int), some (n : Int) = some m → 0 ≤ m := by
    rintro n m ⟨⟩
    exact Int.natCast_nonneg n
  have hlast : lastFields.NonNeg tx.lastVal := ⟨hnat _, hnat _, hnat _, trivial, trivial⟩
  refine ⟨trivial, hnat _, trivial, fun _ _ => trivial, ?_, trivial, trivial,
    nonNeg_joinHex hlast hexFields tx.hexBytes⟩
  rintro m ⟨⟩
  exact h.amount

theorem regular_toVal (h : tx.Encodable) : txFields.Regular (tx.toVal h.recipient) := by
  have hlast : lastFields.Regular tx.lastVal :=
    ⟨Option.some_ne_none _, Option.some_ne_none _, Option.some_ne_none _, trivial, trivial⟩
  refine ⟨trivial, Option.some_ne_none _, trivial, ?_, Option.some_ne_none _, trivial, trivial,
    regular_joinHex hlast hexFields tx.hexBytes⟩
  intro a _
  refine ⟨fun ha => ?_, notEmpty_encodeString a.2⟩
  have hlen := a.2
  rw [ha] at hlen
  cases hlen

/-- **Round trip.** Decoding the encoding of a transaction gives the transaction. -/
theorem decodeBytes_encodeRLP (h : tx.Encodable) : decodeBytes tx.encodeRLP = some (.ok tx) := by
  have henc := encode_toVal h.recipient
  have hsize : (txFields.encode (tx.toVal h.recipient)).flatten.length < 2 ^ 64 := henc ▸ h.size
  have hbody := length_encodeList tx.rlpFields
  have hreads := reads_struct hsize (txFields.decode_of_at (tx.toVal h.recipient) (nonNeg_toVal h)
    (regular_toVal h) hsize (henc ▸ hbody.trans (Nat.lt_succ_self _)) "types.txdata")
  rw [henc] at hreads
  have hdecoded : Rlp.decodeBytes ((encodeList tx.rlpFields).length + 1) txdata
      (encodeList tx.rlpFields) = some (.ok (tx.toVal h.recipient)) := hreads.decodeBytes
  rw [encodeRLP, if_neg (Int.not_lt.mpr h.amount), decodeBytes, hdecoded]
  exact congrArg (fun tx => some (Except.ok tx)) (ofVal_toVal h.recipient)

end GethComments.Transaction
