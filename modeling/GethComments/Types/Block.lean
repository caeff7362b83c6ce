import GethComments.Types.Transaction

/-!
# Headers, blocks and states
-/

namespace GethComments

structure Header where
  parentHash : Hash
  uncleHash : Hash
  coinbase : Address
  root : Hash
  txHash : Hash
  receiptHash : Hash
  bloom : Bytes
  difficulty : Nat
  number : Nat
  gasLimit : UInt64
  gasUsed : UInt64
  time : UInt64
  extra : Bytes
  mixDigest : Hash
  nonce : Bytes
  deriving DecidableEq, Inhabited

namespace Header

open Rlp

def encodeRLP (h : Header) : Bytes :=
  encodeList [encodeString h.parentHash, encodeString h.uncleHash, encodeString h.coinbase,
    encodeString h.root, encodeString h.txHash, encodeString h.receiptHash, encodeString h.bloom,
    encodeUint h.difficulty, encodeUint h.number, encodeUint h.gasLimit.toNat,
    encodeUint h.gasUsed.toNat, encodeUint h.time.toNat, encodeString h.extra,
    encodeString h.mixDigest, encodeString h.nonce]

def hash [HashFns] (h : Header) : Hash := HashFns.keccak256 h.encodeRLP

/-- `Number.Uint64()`. -/
def numberU64 (h : Header) : UInt64 := UInt64.ofNat h.number

end Header

structure Block where
  header : Header
  transactions : List Transaction
  uncles : List Header
  deriving DecidableEq, Inhabited

namespace Block

/-- A block is known by the hash of its header. -/
def hash [HashFns] (b : Block) : Hash := b.header.hash

/-- `NumberU64`: the number as the database keys hold it. -/
def numberU64 (b : Block) : UInt64 := UInt64.ofNat b.header.number

def difficulty (b : Block) : Nat := b.header.difficulty

def parentHash (b : Block) : Hash := b.header.parentHash

end Block

/-- A world state: what execution and the pool read of the accounts. -/
structure StateDB where
  nonce : Address → UInt64
  balance : Address → Int
  code : Address → Bytes
  storage : Address → Hash → Hash

instance : Inhabited StateDB := ⟨⟨fun _ => 0, fun _ => 0, fun _ => [], fun _ _ => []⟩⟩

end GethComments
