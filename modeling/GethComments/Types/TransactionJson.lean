import GethComments.Common.Hexutil
import GethComments.Types.TransactionSigning

/-!
# Transactions in JSON

`gen_tx_json.go` and the methods of `Transaction` around it. Package `encoding/json` is outside:
a JSON object is the list of its members, with the names as the fields spell them.

* `unmarshalJSON_marshalJSON`: what comes back are the fields of the transaction before the
  commitments were added.
-/

namespace GethComments

open Crypto UInt64

open Hexutil

/-! ## JSON objects -/

inductive Json where
  | null
  | string (text : List Char)
  | other
  deriving DecidableEq, Repr

inductive JsonError where
  | unmarshalType (value typ field : String)
  | text (err : DecError)
  | missingField (name : String)
  | invalidSig
  deriving DecidableEq, Repr

/-- A value read into a pointer, with `wrapTypeError`. -/
def member {α : Type} (typ field : String) (read : List Char → Except DecError α) :
    Json → Except JsonError (Option α)
  | .null => .ok none
  | .other => .error (.unmarshalType "non-string" typ field)
  | .string text =>
    match read text with
    | .ok a => .ok (some a)
    | .error (.fixedLength got want typname) => .error (.text (.fixedLength got want typname))
    | .error err => .error (.unmarshalType err.message typ field)

/-! ## `txdata.MarshalJSON` and `txdata.UnmarshalJSON` -/

/-- The structure that `UnmarshalJSON` reads the members into. -/
structure TxJson where
  accountNonce : Option UInt64 := none
  price : Option Nat := none
  gasLimit : Option UInt64 := none
  recipient : Option Address := none
  amount : Option Nat := none
  payload : Option Bytes := none
  v : Option Nat := none
  r : Option Nat := none
  s : Option Nat := none
  hash : Option Hash := none

namespace TxJson

def uint64 (field : String) : Json → Except JsonError (Option UInt64) :=
  member "hexutil.Uint64" field unmarshalUint64

def big (field : String) : Json → Except JsonError (Option Nat) :=
  member "*hexutil.Big" field unmarshalBig

/-- One member; a name without a field is skipped. -/
def set (dec : TxJson) : String × Json → Except JsonError TxJson
  | ("nonce", json) => (uint64 "nonce" json).map fun x => { dec with accountNonce := x }
  | ("gasPrice", json) => (big "gasPrice" json).map fun x => { dec with price := x }
  | ("gas", json) => (uint64 "gas" json).map fun x => { dec with gasLimit := x }
  | ("to", json) =>
    (member "common.Address" "to" (unmarshalFixed 20 "common.Address") json).map fun x =>
      { dec with recipient := x }
  | ("value", json) => (big "value" json).map fun x => { dec with amount := x }
  | ("input", json) =>
    (member "hexutil.Bytes" "input" unmarshalBytes json).map fun x => { dec with payload := x }
  | ("v", json) => (big "v" json).map fun x => { dec with v := x }
  | ("r", json) => (big "r" json).map fun x => { dec with r := x }
  | ("s", json) => (big "s" json).map fun x => { dec with s := x }
  | ("hash", json) =>
    (member "common.Hash" "hash" (unmarshalFixed 32 "common.Hash") json).map fun x =>
      { dec with hash := x }
  | _ => .ok dec

def required {α : Type} (name : String) : Option α → Except JsonError α
  | none => .error (.missingField name)
  | some a => .ok a

/-- The checks and assignments after the members are read; the other fields of `txdata` keep
their zero values. -/
def toTxdata (dec : TxJson) : Except JsonError Transaction := do
  let accountNonce ← required "nonce" dec.accountNonce
  let price ← required "gasPrice" dec.price
  let gasLimit ← required "gas" dec.gasLimit
  let amount ← required "value" dec.amount
  let payload ← required "input" dec.payload
  let v ← required "v" dec.v
  let r ← required "r" dec.r
  let s ← required "s" dec.s
  return { (default : Transaction) with
    accountNonce, price, gasLimit, recipient := dec.recipient, amount := amount, payload, v, r, s }

end TxJson

namespace Transaction

def marshalRecipient : Option Address → Json
  | none => .null
  | some a => .string (encode a)

/-- The members that `MarshalJSON` writes. -/
def marshalJSON [HashFns] (tx : Transaction) : List (String × Json) := [
  ("nonce", .string (encodeUint64 tx.accountNonce)), ("gasPrice", .string (encodeBig tx.price)),
  ("gas", .string (encodeUint64 tx.gasLimit)),
  ("to", marshalRecipient tx.recipient),
  ("value", .string (encodeBig tx.amount)), ("input", .string (encode tx.payload)),
  ("v", .string (encodeBig tx.v)), ("r", .string (encodeBig tx.r)),
  ("s", .string (encodeBig tx.s)), ("hash", .string (encode tx.hash))]

/-- The byte that `UnmarshalJSON` validates a signature with. -/
def signatureByte (v : Nat) : UInt8 :=
  if isProtectedV v = true then
    (ofNat v - 35 - 2 * ofNat (deriveChainId v)).toUInt8
  else (ofNat v - 27).toUInt8

/-- `txdata.UnmarshalJSON`. -/
def unmarshalTxdata (input : List (String × Json)) : Except JsonError Transaction := do
  let dec ← input.foldlM TxJson.set {}
  dec.toTxdata

def unmarshalJSON (cryptoType : CryptoType) (input : List (String × Json)) :
    Except JsonError Transaction :=
  match unmarshalTxdata input with
  | .error err => .error err
  | .ok dec =>
    let withSignature := dec.v ≠ 0 ∨ dec.r ≠ 0 ∨ dec.s ≠ 0
    if withSignature ∧ validateSignatureValues cryptoType (signatureByte dec.v) dec.r dec.s
        false = false then .error .invalidSig
    else .ok dec

/-! ## Round trip -/

/-- The transaction with the fields that the protocol had before the commitments were added. -/
def original (tx : Transaction) : Transaction :=
  { (default : Transaction) with
    accountNonce := tx.accountNonce, price := tx.price, gasLimit := tx.gasLimit
    recipient := tx.recipient, amount := tx.amount, payload := tx.payload
    v := tx.v, r := tx.r, s := tx.s }

/-- Numbers of 256 bits; the lengths of the address and of the hash are those of their types. -/
structure JsonSized [HashFns] (tx : Transaction) : Prop where
  price : tx.price < 2 ^ 256
  amount_nonneg : 0 ≤ tx.amount
  amount : tx.amount < 2 ^ 256
  v : tx.v < 2 ^ 256
  r : tx.r < 2 ^ 256
  s : tx.s < 2 ^ 256
  recipient : ∀ a, tx.recipient = some a → a.length = 20
  hash : tx.hash.length = 32

theorem member_string {α : Type} {typ field : String} {read : List Char → Except DecError α}
    {text : List Char} {a : α} (h : read text = .ok a) :
    member typ field read (.string text) = .ok (some a) := by
  rw [member, h]

theorem uint64_encode (field : String) (n : UInt64) :
    TxJson.uint64 field (.string (encodeUint64 n)) = .ok (some n) :=
  member_string (unmarshalUint64_encode n)

theorem big_encode (field : String) {n : Nat} (h : n < 2 ^ 256) :
    TxJson.big field (.string (encodeBig n)) = .ok (some n) :=
  member_string (unmarshalBig_encode h)

theorem recipient_encode {recipient : Option Address}
    (h : ∀ a, recipient = some a → a.length = 20) :
    member "common.Address" "to" (unmarshalFixed 20 "common.Address")
      (marshalRecipient recipient) = .ok recipient := by
  cases recipient with
  | none => rfl
  | some a => exact member_string (unmarshalFixed_encode _ (h a rfl))

variable {tx : Transaction}

theorem foldlM_marshalJSON [HashFns] (h : tx.JsonSized) :
    tx.marshalJSON.foldlM TxJson.set {} = .ok {
      accountNonce := some tx.accountNonce, price := some tx.price, gasLimit := some tx.gasLimit
      recipient := tx.recipient, amount := some tx.amount.toNat, payload := some tx.payload
      v := some tx.v, r := some tx.r, s := some tx.s, hash := some tx.hash } := by
  have hamount : tx.amount = (tx.amount.toNat : Int) := (Int.toNat_of_nonneg h.amount_nonneg).symm
  have hvalue : TxJson.big "value" (.string (encodeBig tx.amount)) =
      .ok (some tx.amount.toNat) := by
    rw [hamount]
    have hlt := h.amount
    exact big_encode _ (by omega)
  have hinput : member "hexutil.Bytes" "input" unmarshalBytes (.string (encode tx.payload)) =
      .ok (some tx.payload) := member_string (unmarshalBytes_encode _)
  have hhash : member "common.Hash" "hash" (unmarshalFixed 32 "common.Hash")
      (.string (encode tx.hash)) = .ok (some tx.hash) :=
    member_string (unmarshalFixed_encode _ h.hash)
  simp only [marshalJSON, List.foldlM_cons, List.foldlM_nil, TxJson.set, uint64_encode,
    big_encode _ h.price, recipient_encode h.recipient, hvalue, hinput, big_encode _ h.v,
    big_encode _ h.r, big_encode _ h.s, hhash, Except.map]
  rfl

/-- What comes back is the transaction without its identifier, its commitments, proofs and
cyphertexts, and without `PK`. -/
theorem unmarshalJSON_marshalJSON [HashFns] (h : tx.JsonSized) {cryptoType : CryptoType}
    (hsig : validateSignatureValues cryptoType (signatureByte tx.v) tx.r tx.s false = true) :
    unmarshalJSON cryptoType tx.marshalJSON = .ok tx.original := by
  have hcheck : ¬((tx.original.v ≠ 0 ∨ tx.original.r ≠ 0 ∨ tx.original.s ≠ 0) ∧
      validateSignatureValues cryptoType (signatureByte tx.original.v) tx.original.r
        tx.original.s false = false) := by
    rintro ⟨-, hfalse⟩
    exact absurd (hsig.symm.trans hfalse) (by decide)
  have hdata : unmarshalTxdata tx.marshalJSON = .ok tx.original := by
    rw [unmarshalTxdata, foldlM_marshalJSON h, original, ← Int.toNat_of_nonneg h.amount_nonneg]
    rfl
  rw [unmarshalJSON, hdata]
  exact if_neg hcheck

/-! ## Signed transactions -/

/-- The fields of bytes that the repository added to a transaction. -/
def addedFields (tx : Transaction) : List Bytes := tx.hexBytes ++ [tx.pk]

def commitmentFields (tx : Transaction) : List Bytes :=
  [tx.cmRpk, tx.cmSpk, tx.cmS, tx.cmR, tx.cmO, tx.cmV]

theorem original_eq_iff : tx.original = tx ↔ tx.id = 0 ∧ ∀ b ∈ tx.addedFields, b = [] := by
  constructor
  · intro h
    have hadded : tx.original.addedFields = List.replicate 58 [] := rfl
    rw [← h, hadded]
    exact ⟨rfl, fun b hb => List.eq_of_mem_replicate hb⟩
  rintro ⟨hid, h⟩
  cases tx
  simp only [addedFields, hexBytes, List.cons_append, List.nil_append, List.mem_cons,
    List.not_mem_nil, or_false, forall_eq_or_imp, forall_eq] at h hid
  simp only [original, h, hid]
  rfl

theorem JsonSized.eq_original [HashFns] (h : tx.JsonSized)
    (hlen : tx.encodeRLP.length < Rlp.sizeBound)
    (heq : tx.original.encodeRLP = tx.encodeRLP) : tx.original = tx := by
  have hencodable : ∀ tx' : Transaction, 0 ≤ tx'.amount →
      (∀ a, tx'.recipient = some a → a.length = 20) → tx'.encodeRLP = tx.encodeRLP →
      tx'.Encodable := by
    intro tx' hamount hto henc
    rw [← henc, encodeRLP, if_neg (Int.not_lt.mpr hamount)] at hlen
    exact ⟨hamount, hto, (Rlp.length_encodeList _).trans hlen⟩
  have hread := decodeBytes_encodeRLP (hencodable tx.original h.amount_nonneg h.recipient heq)
  rw [heq, decodeBytes_encodeRLP (hencodable tx h.amount_nonneg h.recipient rfl)] at hread
  exact (Except.ok.inj (Option.some.inj hread)).symm

theorem signatureByte_frontier {v : UInt8} (hv : v = 0 ∨ v = 1) :
    signatureByte (27 + v.toNat) = v := by
  rcases hv with rfl | rfl <;> decide

theorem signatureByte_eip155 {v : UInt8} (hv : v = 0 ∨ v = 1) {chainId : Nat} (hpos : 0 < chainId) :
    signatureByte ((v + 35).toNat + 2 * chainId) = v := by
  have hb : v.toNat ≤ 1 := by rcases hv with rfl | rfl <;> decide
  have hnat : (v + 35).toNat = 35 + v.toNat := by rcases hv with rfl | rfl <;> rfl
  have hprotected : isProtectedV (35 + v.toNat + 2 * chainId) = true := by
    simp only [isProtectedV, decide_eq_true_eq]
    omega
  have hsub : ofNat (35 + v.toNat + 2 * chainId) - 35 - 2 * ofNat chainId =
      ofNat v.toNat := by
    rw [ofNat_add, ofNat_add, ofNat_mul]
    grind
  rw [hnat, signatureByte, if_pos hprotected, deriveChainId_eip155 hb, hsub]
  rcases hv with rfl | rfl <;> rfl

theorem validateSignatureValues_signTx [HashFns] {PrivateKey PublicKey : Type}
    {C : Crypto PrivateKey PublicKey} (hC : C.Correct) {signed : Transaction} {signer : Signer}
    {prv : PrivateKey} (h : signTx C tx signer prv = .ok signed) :
    validateSignatureValues C.cryptoType (signatureByte signed.v) signed.r signed.s false =
      true := by
  obtain ⟨r, s, v, tail, hparts, hsigned⟩ := signTx_spec hC h
  have hvalid := validateSignatureValues_frontier hparts.valid
  cases signer with
  | frontier | homestead =>
    simp only at hsigned
    rw [hsigned]
    show validateSignatureValues C.cryptoType (signatureByte (27 + v.toNat)) r s false = true
    rw [signatureByte_frontier hparts.parity, hvalid]
  | eip155 chainId =>
    simp only at hsigned
    rw [hsigned]
    show validateSignatureValues C.cryptoType (signatureByte
      (if chainId ≠ 0 then (v + 35).toNat + 2 * chainId else 27 + v.toNat)) r s false = true
    split
    case isTrue hne =>
      rw [signatureByte_eip155 hparts.parity (Nat.pos_of_ne_zero hne), hvalid]
    case isFalse => rw [signatureByte_frontier hparts.parity, hvalid]

/-- **Round trip through JSON.** A signed transaction comes back with its hash, its identifier and
its commitments exactly if it uses none of the added fields. -/
theorem unmarshalJSON_signed [HashFns] {PrivateKey PublicKey : Type}
    {C : Crypto PrivateKey PublicKey} (hC : C.Correct) {tx signed : Transaction} {signer : Signer}
    {prv : PrivateKey} (hsign : signTx C tx signer prv = .ok signed) (hsized : signed.JsonSized)
    (hlen : signed.encodeRLP.length < Rlp.sizeBound)
    (hinj : Set.InjOn HashFns.keccak256 {signed.original.encodeRLP, signed.encodeRLP}) :
    (∃ decoded, unmarshalJSON C.cryptoType signed.marshalJSON = .ok decoded ∧
      decoded.hash = signed.hash ∧ decoded.id = signed.id ∧
      decoded.commitmentFields = signed.commitmentFields) ↔
      signed.id = 0 ∧ ∀ b ∈ signed.addedFields, b = [] := by
  rw [unmarshalJSON_marshalJSON hsized (validateSignatureValues_signTx hC hsign),
    ← original_eq_iff]
  constructor
  · rintro ⟨_, ⟨⟩, hhash, -⟩
    exact hsized.eq_original hlen (hinj (Or.inl rfl) (Or.inr rfl) hhash)
  · exact fun h => ⟨_, rfl, by rw [h], by rw [h], by rw [h]⟩

section Runs

attribute [local instance] HashFns.sha

/-- A signed transfer without commitments. -/
def paidSpend : Transaction :=
  { spend [] with
    accountNonce := 7, price := 3, gasLimit := 21000, amount := 5, payload := [1, 200]
    r := 6, s := 1, v := 27 }

theorem unmarshalJSON_signed_spend : ∃ decoded,
    unmarshalJSON .eccSh3Aes paidSpend.marshalJSON = .ok decoded ∧ decoded.hash = paidSpend.hash ∧
      decoded.id = 0 ∧ decoded.commitmentFields = [[], [], [], [], [], []] := by
  have hsign : signTx (plain .eccSh3Aes) { paidSpend with r := 0, s := 0, v := 0 } .homestead 5 =
      .ok paidSpend := rfl
  refine (unmarshalJSON_signed (plain_correct .eccSh3Aes) hsign ?_ (by decide) ?_).mpr
    ⟨rfl, by decide⟩
  · exact ⟨by decide, by decide, by decide, by decide, by decide, by decide,
      by rintro a h; cases h; rfl, Sha256.sum256_length _⟩
  · rintro b (rfl | rfl) b' (rfl | rfl) - <;> rfl

/-- The commitment of a signed transfer is lost. So is the hash, also without commitments, as
the EIP155 signer fills `PK`. -/
theorem unmarshalJSON_loses_fields : signTx (Crypto.plain .eccSh3Aes) (spend [10]) .homestead 5 =
        .ok { spend [10] with r := 6, s := 1, v := 27 } ∧
      (unmarshalJSON .eccSh3Aes (marshalJSON { spend [10] with r := 6, s := 1, v := 27 })).map
        commitmentFields = .ok [[], [], [], [], [], []] ∧
      commitmentFields { spend [10] with r := 6, s := 1, v := 27 } = [[], [], [], [], [10], []] ∧
      signTx (Crypto.plain .eccSh3Aes) (spend []) (.eip155 1) 5 =
        .ok { spend [] with r := 6, s := 1, v := 37, pk := List.replicate 32 0 } ∧
      (unmarshalJSON .eccSh3Aes (marshalJSON
        { spend [] with r := 6, s := 1, v := 37, pk := List.replicate 32 0 })).map hash ≠
        .ok (hash { spend [] with r := 6, s := 1, v := 37, pk := List.replicate 32 0 }) :=
  ⟨rfl, by decide +kernel, rfl, rfl, by decide +kernel⟩

end Runs

end Transaction

end GethComments
