import GethComments.Core.TxList

/-!
# The indexes of the transaction pool

`txLookup` (all transactions by hash), `txPricedList` (the heap of prices with its count
of stale entries) and `txNoncer` (the virtual nonces of the pool).

* `TxLookup.get_add`, `TxLookup.get_remove`: what the two operations change.
-/

namespace GethComments

/-- A slot is 32 KiB. -/
def txSlotSize : Nat := 32 * 1024

/-- The largest transaction, which is two slots. -/
def txMaxSize : Nat := 2 * txSlotSize

def numSlots (tx : Transaction) : Nat := (tx.size + txSlotSize - 1) / txSlotSize

/-! ## All transactions -/

variable [HashFns]

/-- `txLookup`: every transaction is found under its own hash. -/
structure TxLookup where
  all : AList fun _ : Hash => Transaction
  slots : Int
  keyed : ∀ hash tx, all.lookup hash = some tx → tx.hash = hash

namespace TxLookup

/-- `newTxLookup`. -/
def empty : TxLookup where
  all := ∅
  slots := 0
  keyed := by simp

def get (t : TxLookup) (hash : Hash) : Option Transaction := t.all.lookup hash

def count (t : TxLookup) : Nat := t.all.entries.length

/-- The transactions in some order, as `Range` visits them. -/
def range (t : TxLookup) : List Transaction := t.all.entries.map Sigma.snd

def add (t : TxLookup) (tx : Transaction) : TxLookup where
  all := t.all.insert tx.hash tx
  slots := t.slots + numSlots tx
  keyed := by
    intro hash u h
    by_cases heq : hash = tx.hash
    · subst heq
      rw [AList.lookup_insert] at h
      cases h
      rfl
    · rw [AList.lookup_insert_ne heq] at h
      exact t.keyed hash u h

/-- `Remove`; the code is only given hashes that are present. -/
def remove (t : TxLookup) (hash : Hash) : TxLookup where
  all := t.all.erase hash
  slots := t.slots - ((t.get hash).map numSlots).getD 0
  keyed := by
    intro h u hu
    by_cases heq : h = hash
    · subst heq
      rw [AList.lookup_erase] at hu
      cases hu
    · rw [AList.lookup_erase_ne heq] at hu
      exact t.keyed h u hu

theorem hash_of_get {t : TxLookup} {hash : Hash} {tx : Transaction} (h : t.get hash = some tx) :
    tx.hash = hash :=
  t.keyed hash tx h

@[simp] theorem get_empty (hash : Hash) : TxLookup.empty.get hash = none := rfl

theorem get_add (t : TxLookup) (tx : Transaction) :
    (t.add tx).get = Function.update t.get tx.hash (some tx) := by
  funext hash
  by_cases h : hash = tx.hash
  · subst h
    simp [get, add]
  · simp [get, add, h]

theorem get_remove (t : TxLookup) (hash : Hash) :
    (t.remove hash).get = Function.update t.get hash none := by
  funext h
  by_cases heq : h = hash
  · subst heq
    simp [get, remove]
  · simp [get, remove, heq]

end TxLookup

/-! ## Prices -/

/-- `txPricedList`: the heap with the number of entries known to be stale. -/
structure TxPricedList where
  items : List Transaction
  stales : Int

namespace TxPricedList

/-- `priceHeap.Less`: the cheaper one first, at one price the higher nonce. -/
def less (t u : Transaction) : Bool :=
  if t.price < u.price then true
  else if t.price > u.price then false
  else t.accountNonce > u.accountNonce

def empty : TxPricedList := ⟨[], 0⟩

def put (l : TxPricedList) (tx : Transaction) : TxPricedList :=
  { l with items := ContainerHeap.push less l.items tx }

/-- `Removed`: more than a quarter of stale entries makes a new heap of all transactions. -/
def removed (l : TxPricedList) (all : TxLookup) (count : Nat) : TxPricedList :=
  let stales := l.stales + count
  if stales ≤ l.items.length / 4 then { l with stales }
  else ⟨ContainerHeap.init less all.range, 0⟩

/-- Pops stale entries until the head is a pooled transaction. -/
def dropStale (all : TxLookup) : Nat → TxPricedList → TxPricedList
  | 0, l => l
  | fuel + 1, l =>
    match l.items.head? with
    | none => l
    | some head =>
      if (all.get head.hash).isSome then l
      else
        match ContainerHeap.pop less l.items with
        | none => l
        | some (_, items) => dropStale all fuel ⟨items, l.stales - 1⟩

/-- `Underpriced`, with the heap it leaves. `isLocal` is `containsTx` of the local accounts. -/
def underpriced (l : TxPricedList) (all : TxLookup) (tx : Transaction)
    (isLocal : Transaction → Bool) : Bool × TxPricedList :=
  if isLocal tx then (false, l)
  else
    let l := dropStale all l.items.length l
    match l.items.head? with
    | none => (false, l)
    | some cheapest => (cheapest.price ≥ tx.price, l)

/-- The loop of `Discard`, with the transactions to drop and the local ones to keep. -/
def discardLoop (all : TxLookup) (isLocal : Transaction → Bool) :
    Nat → Int → TxPricedList → List Transaction → List Transaction →
      List Transaction × List Transaction × TxPricedList
  | 0, _, l, drop, save => (drop, save, l)
  | fuel + 1, slots, l, drop, save =>
    if slots ≤ 0 then (drop, save, l)
    else
      match ContainerHeap.pop less l.items with
      | none => (drop, save, l)
      | some (tx, items) =>
        if (all.get tx.hash).isNone then
          discardLoop all isLocal fuel slots ⟨items, l.stales - 1⟩ drop save
        else if isLocal tx then
          discardLoop all isLocal fuel slots ⟨items, l.stales⟩ drop (save ++ [tx])
        else
          discardLoop all isLocal fuel (slots - numSlots tx) ⟨items, l.stales⟩ (drop ++ [tx]) save

/-- `Discard`: the cheapest remote transactions that free `slots` slots. -/
def discard (l : TxPricedList) (all : TxLookup) (slots : Int) (isLocal : Transaction → Bool) :
    List Transaction × TxPricedList :=
  let (drop, save, l) := discardLoop all isLocal l.items.length slots l [] []
  (drop, save.foldl put l)

/-- The loop of `Cap`, with the transactions to drop and the ones to keep. -/
def capLoop (all : TxLookup) (threshold : Int) (isLocal : Transaction → Bool) :
    Nat → TxPricedList → List Transaction → List Transaction →
      List Transaction × List Transaction × TxPricedList
  | 0, l, drop, save => (drop, save, l)
  | fuel + 1, l, drop, save =>
    match ContainerHeap.pop less l.items with
    | none => (drop, save, l)
    | some (tx, items) =>
      if (all.get tx.hash).isNone then
        capLoop all threshold isLocal fuel ⟨items, l.stales - 1⟩ drop save
      -- the threshold is reached
      else if tx.price ≥ threshold then (drop, save ++ [tx], ⟨items, l.stales⟩)
      else if isLocal tx then
        capLoop all threshold isLocal fuel ⟨items, l.stales⟩ drop (save ++ [tx])
      else capLoop all threshold isLocal fuel ⟨items, l.stales⟩ (drop ++ [tx]) save

/-- `Cap`: the remote transactions below the price. -/
def cap (l : TxPricedList) (all : TxLookup) (threshold : Int) (isLocal : Transaction → Bool) :
    List Transaction × TxPricedList :=
  let (drop, save, l) := capLoop all threshold isLocal l.items.length l [] []
  (drop, save.foldl put l)

end TxPricedList

/-! ## Nonces -/

/-- `txNoncer`; an entry that only caches the fallback is left out. -/
structure TxNoncer where
  fallback : StateDB
  nonces : Address → Option UInt64

namespace TxNoncer

/-- `newTxNoncer`. -/
def new (statedb : StateDB) : TxNoncer := ⟨statedb, fun _ => none⟩

def get (n : TxNoncer) (addr : Address) : UInt64 := (n.nonces addr).getD (n.fallback.nonce addr)

def set (n : TxNoncer) (addr : Address) (nonce : UInt64) : TxNoncer :=
  { n with nonces := Function.update n.nonces addr (some nonce) }

def setIfLower (n : TxNoncer) (addr : Address) (nonce : UInt64) : TxNoncer :=
  if n.get addr ≤ nonce then n else n.set addr nonce

end TxNoncer

end GethComments
