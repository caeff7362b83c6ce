import GethComments.Lib.ContainerHeap
import GethComments.Types.Block
import Mathlib.Data.List.AList

/-!
# The lists of the transaction pool

`txSortedMap`, `txList`, `txPricedList` (`tx_list.go`), `txLookup` (`tx_pool.go`) and
`txNoncer` (`tx_noncer.go`). A sorted map is kept as the list of its transactions in the
order of their nonces, which the heap of nonces and the cache of the source represent.

* `TxSortedMap.get_put`: what an insertion changes;
* `TxSortedMap.Splits`: what every removal does, and its consequences for `get`;
* `TxList.Takes`: the same for the lists of an account, with one lemma for each removal.
-/

namespace GethComments

open List

/-- The transactions of one account by nonce. -/
structure TxSortedMap where
  txs : List Transaction
  sorted : txs.Pairwise fun t u => t.accountNonce < u.accountNonce

variable {tx t : Transaction} {nonce : UInt64}

namespace TxSortedMap

/-! ## Operations -/

def empty : TxSortedMap := ⟨[], List.Pairwise.nil⟩

instance : Inhabited TxSortedMap := ⟨empty⟩

def get (m : TxSortedMap) (nonce : UInt64) : Option Transaction :=
  m.txs.find? fun t => t.accountNonce = nonce

/-- Insertion into a sorted list, over a transaction of the same nonce. -/
def putList (tx : Transaction) : List Transaction → List Transaction
  | [] => [tx]
  | t :: ts =>
    if tx.accountNonce < t.accountNonce then tx :: t :: ts
    else if tx.accountNonce = t.accountNonce then tx :: ts
    else t :: putList tx ts

theorem mem_putList {ts : List Transaction} (h : t ∈ putList tx ts) : t = tx ∨ t ∈ ts := by
  induction ts with
  | nil => exact Or.inl (mem_singleton.mp h)
  | cons u us ih =>
    unfold putList at h
    split_ifs at h
    · exact mem_cons.mp h
    · rcases mem_cons.mp h with h | h
      · exact Or.inl h
      · exact Or.inr (mem_cons_of_mem u h)
    · rcases mem_cons.mp h with h | h
      · exact Or.inr (h ▸ mem_cons_self)
      · exact (ih h).imp_right (mem_cons_of_mem u)

theorem sorted_putList (tx : Transaction) {ts : List Transaction}
    (h : ts.Pairwise fun t u => t.accountNonce < u.accountNonce) :
    (putList tx ts).Pairwise fun t u => t.accountNonce < u.accountNonce := by
  induction ts with
  | nil => exact pairwise_singleton _ tx
  | cons u us ih =>
    obtain ⟨hu, hus⟩ := pairwise_cons.mp h
    unfold putList
    split_ifs with hlt heq
    · refine pairwise_cons.mpr ⟨fun t ht => ?_, h⟩
      rcases mem_cons.mp ht with rfl | ht
      · exact hlt
      · exact UInt64.lt_trans hlt (hu t ht)
    · exact pairwise_cons.mpr ⟨fun t ht => heq ▸ hu t ht, hus⟩
    · refine pairwise_cons.mpr ⟨fun t ht => ?_, ih hus⟩
      rcases mem_putList ht with rfl | ht
      · exact UInt64.lt_of_le_of_ne (UInt64.not_lt.mp hlt) (Ne.symm heq)
      · exact hu t ht

def put (m : TxSortedMap) (tx : Transaction) : TxSortedMap :=
  ⟨putList tx m.txs, sorted_putList tx m.sorted⟩

def keep (m : TxSortedMap) (ts : List Transaction) (h : ts.Sublist m.txs) : TxSortedMap :=
  ⟨ts, m.sorted.sublist h⟩

/-- `Forward`: the transactions below the threshold are removed, and returned. -/
def forward (m : TxSortedMap) (threshold : UInt64) : List Transaction × TxSortedMap :=
  (m.txs.takeWhile fun t => t.accountNonce < threshold,
    m.keep (m.txs.dropWhile fun t => t.accountNonce < threshold) (dropWhile_sublist _))

/-- `Filter`: the transactions that satisfy the predicate are removed, and returned. -/
def filter (m : TxSortedMap) (p : Transaction → Bool) : List Transaction × TxSortedMap :=
  (m.txs.filter p, m.keep (m.txs.filter fun t => !p t) filter_sublist)

/-- `Cap`: the highest nonces over the limit are removed, highest first. -/
def cap (m : TxSortedMap) (threshold : Nat) : List Transaction × TxSortedMap :=
  ((m.txs.drop threshold).reverse, m.keep (m.txs.take threshold) (take_sublist _ _))

/-- `Remove`, with whether the nonce was present. -/
def remove (m : TxSortedMap) (nonce : UInt64) : Bool × TxSortedMap :=
  ((m.get nonce).isSome, m.keep (m.txs.filter fun t => t.accountNonce ≠ nonce) filter_sublist)

/-- The transactions of consecutive nonces from `next` on, and the others. -/
def consecutive : UInt64 → List Transaction → List Transaction × List Transaction
  | _, [] => ([], [])
  | next, t :: ts =>
    if t.accountNonce = next then
      let (ready, rest) := consecutive (next + 1) ts
      (t :: ready, rest)
    else ([], t :: ts)

theorem consecutive_append (next : UInt64) (ts : List Transaction) :
    (consecutive next ts).1 ++ (consecutive next ts).2 = ts := by
  induction ts generalizing next with
  | nil => rfl
  | cons t ts ih =>
    unfold consecutive
    split_ifs
    · exact congrArg (t :: ·) (ih (next + 1))
    · rfl

/-- `Ready`: from the lowest nonce on, if it is not above `start`. -/
def ready (m : TxSortedMap) (start : UInt64) : List Transaction × TxSortedMap :=
  match m.txs.head? with
  | none => ([], m)
  | some t =>
    if t.accountNonce > start then ([], m)
    else
      ((consecutive t.accountNonce m.txs).1, m.keep (consecutive t.accountNonce m.txs).2 (by
          have h := sublist_append_right (consecutive t.accountNonce m.txs).1
            (consecutive t.accountNonce m.txs).2
          rwa [consecutive_append] at h))

def len (m : TxSortedMap) : Nat := m.txs.length

def flatten (m : TxSortedMap) : List Transaction := m.txs

/-! ## Lookup -/

theorem nonces_nodup (m : TxSortedMap) : (m.txs.map Transaction.accountNonce).Nodup :=
  pairwise_map.mpr (m.sorted.imp UInt64.ne_of_lt)

theorem get_eq_some_iff {m : TxSortedMap} :
    m.get nonce = some t ↔ t ∈ m.txs ∧ t.accountNonce = nonce := by
  constructor
  · intro h
    exact ⟨List.mem_of_find?_eq_some h, by simpa using find?_some h⟩
  · rintro ⟨ht, rfl⟩
    have hsome : (m.get t.accountNonce).isSome := find?_isSome.mpr ⟨t, ht, by simp⟩
    obtain ⟨u, hu⟩ := Option.isSome_iff_exists.mp hsome
    have hnonce : u.accountNonce = t.accountNonce := by simpa using find?_some hu
    rw [hu, inj_on_of_nodup_map m.nonces_nodup (mem_of_find?_eq_some hu) ht hnonce]

theorem get_eq_none_iff {m : TxSortedMap} :
    m.get nonce = none ↔ ∀ t ∈ m.txs, t.accountNonce ≠ nonce := by
  simp [get]

@[simp] theorem get_empty (nonce : UInt64) : empty.get nonce = none := rfl

theorem get_put (m : TxSortedMap) (tx : Transaction) (nonce : UInt64) :
    (m.put tx).get nonce = if nonce = tx.accountNonce then some tx else m.get nonce := by
  show (putList tx m.txs).find? _ = if _ then _ else m.txs.find? _
  induction m.txs with
  | nil => grind [putList]
  | cons u us ih =>
    unfold putList
    by_cases hlt : tx.accountNonce < u.accountNonce
    · rw [if_pos hlt]
      grind
    · by_cases heq : tx.accountNonce = u.accountNonce
      · rw [if_neg hlt, if_pos heq, find?_cons, find?_cons, heq]
        grind
      · rw [if_neg hlt, if_neg heq, find?_cons, find?_cons, ih]
        grind

/-! ## Removals -/

/-- A removal splits the transactions of a map into the ones it returns and the ones left. -/
def Splits (m : TxSortedMap) (removed : List Transaction) (rest : TxSortedMap) : Prop :=
  (removed ++ rest.txs).Perm m.txs

theorem Splits.refl (m : TxSortedMap) : m.Splits [] m := List.Perm.refl _

theorem splits_forward (m : TxSortedMap) (threshold : UInt64) :
    m.Splits (m.forward threshold).1 (m.forward threshold).2 := by
  have h : m.txs.takeWhile (fun t => t.accountNonce < threshold) ++
      m.txs.dropWhile (fun t => t.accountNonce < threshold) = m.txs :=
    takeWhile_append_dropWhile
  exact List.Perm.of_eq h

theorem splits_filter (m : TxSortedMap) (p : Transaction → Bool) :
    m.Splits (m.filter p).1 (m.filter p).2 :=
  filter_append_perm p m.txs

theorem splits_cap (m : TxSortedMap) (threshold : Nat) :
    m.Splits (m.cap threshold).1 (m.cap threshold).2 := by
  have hrev : ((m.txs.drop threshold).reverse ++ m.txs.take threshold).Perm
      (m.txs.drop threshold ++ m.txs.take threshold) :=
    (reverse_perm _).append_right _
  have happ : (m.txs.take threshold ++ m.txs.drop threshold).Perm m.txs :=
    List.Perm.of_eq (take_append_drop threshold m.txs)
  exact (hrev.trans perm_append_comm).trans happ

theorem splits_ready (m : TxSortedMap) (start : UInt64) :
    m.Splits (m.ready start).1 (m.ready start).2 := by
  unfold ready
  cases m.txs.head? with
  | none => exact Splits.refl m
  | some t =>
    dsimp only
    split
    · exact Splits.refl m
    · exact List.Perm.of_eq (consecutive_append _ m.txs)

theorem splits_remove {m : TxSortedMap}
    (h : m.get nonce = some t) : m.Splits [t] (m.remove nonce).2 := by
  obtain ⟨ht, rfl⟩ := get_eq_some_iff.mp h
  have hnd : m.txs.Nodup := m.nonces_nodup.of_map
  have hrest : (m.remove t.accountNonce).2.txs =
      m.txs.filter fun u => u.accountNonce ≠ t.accountNonce := rfl
  unfold Splits
  rw [hrest]
  refine (perm_ext_iff_of_nodup ?_ hnd).mpr fun u => ?_
  · exact nodup_cons.mpr ⟨by simp, hnd.filter _⟩
  · by_cases hu : u.accountNonce = t.accountNonce
    · have heq : u ∈ m.txs → u = t := fun hm => inj_on_of_nodup_map m.nonces_nodup hm ht hu
      simp only [singleton_append, mem_cons, mem_filter, hu]
      constructor
      · rintro (rfl | ⟨-, hne⟩)
        · exact ht
        · simp at hne
      · exact fun hm => Or.inl (heq hm)
    · have hne : u ≠ t := fun h => hu (h ▸ rfl)
      simp [hne, hu]

theorem Splits.trans {m m1 m2 : TxSortedMap} {r1 r2 : List Transaction} (h1 : m.Splits r1 m1)
    (h2 : m1.Splits r2 m2) : m.Splits (r1 ++ r2) m2 := by
  unfold Splits
  rw [append_assoc]
  exact (h2.append_left r1).trans h1

section Consequences

variable {m rest : TxSortedMap} {removed : List Transaction} {t : Transaction} {nonce : UInt64}

variable (h : m.Splits removed rest)
include h

theorem Splits.nonces_nodup : ((removed ++ rest.txs).map Transaction.accountNonce).Nodup :=
  (h.map Transaction.accountNonce).nodup_iff.mpr m.nonces_nodup

theorem Splits.get_of_mem (ht : t ∈ removed) :
    m.get t.accountNonce = some t ∧ rest.get t.accountNonce = none := by
  refine ⟨get_eq_some_iff.mpr ⟨h.subset (mem_append_left _ ht), rfl⟩, ?_⟩
  rw [get_eq_none_iff]
  intro u hu heq
  have hnd := h.nonces_nodup
  rw [map_append, nodup_append] at hnd
  exact hnd.2.2 _ (mem_map_of_mem ht) _ (mem_map_of_mem hu) heq.symm

theorem Splits.get_of_rest (ht : rest.get nonce = some t) : m.get nonce = some t := by
  rw [get_eq_some_iff] at ht ⊢
  exact ⟨h.subset (mem_append_right _ ht.1), ht.2⟩

theorem Splits.get_cases (ht : m.get nonce = some t) : t ∈ removed ∨ rest.get nonce = some t := by
  obtain ⟨hmem, hn⟩ := get_eq_some_iff.mp ht
  rcases mem_append.mp (h.symm.subset hmem) with hr | hr
  · exact Or.inl hr
  · exact Or.inr (get_eq_some_iff.mpr ⟨hr, hn⟩)

theorem Splits.removed_apart : removed.Pairwise fun t u => t.accountNonce ≠ u.accountNonce := by
  have hnd := h.nonces_nodup
  rw [map_append, nodup_append] at hnd
  exact pairwise_map.mp hnd.1

end Consequences

end TxSortedMap

/-! ## Transactions of an account -/

/-- `txList`; a strict one holds the executable transactions of an account. -/
structure TxList where
  strict : Bool
  txs : TxSortedMap
  /-- The highest cost and gas limit, reset only if a limit falls below them. -/
  costcap : Int
  gascap : UInt64

/-- `newTxList`. -/
def newTxList (strict : Bool) : TxList where
  strict := strict
  txs := TxSortedMap.empty
  costcap := 0
  gascap := 0

namespace TxList

def get (l : TxList) (nonce : UInt64) : Option Transaction := l.txs.get nonce

def len (l : TxList) : Nat := l.txs.len

def flatten (l : TxList) : List Transaction := l.txs.flatten

def isEmpty (l : TxList) : Bool := l.len = 0

def overlaps (l : TxList) (tx : Transaction) : Bool := (l.get tx.accountNonce).isSome

/-- The least price of a replacement: `100 + int64(priceBump)` percent of the old one. -/
def threshold (old : Transaction) (priceBump : UInt64) : Int :=
  old.price * (100 + priceBump.toInt64).toInt / 100

/-- Whether the transaction `old` is kept against `tx` of the same nonce. -/
def keepsOld (old tx : Transaction) (priceBump : UInt64) : Bool :=
  old.price ≥ tx.price || threshold old priceBump > tx.price

/-- The end of `Add`: the transaction goes in and the caps are raised to it. -/
def insert (l : TxList) (tx : Transaction) : TxList :=
  { l with
    txs := l.txs.put tx
    costcap := if l.costcap < tx.cost then tx.cost else l.costcap
    gascap := if l.gascap < tx.gasLimit then tx.gasLimit else l.gascap }

/-- `Add`: `none` if an older transaction is better, else the transaction replaced. -/
def add (l : TxList) (tx : Transaction) (priceBump : UInt64) :
    Option (Option Transaction × TxList) :=
  match l.get tx.accountNonce with
  | none => some (none, l.insert tx)
  | some old => if keepsOld old tx priceBump then none else some (some old, l.insert tx)

def forward (l : TxList) (threshold : UInt64) : List Transaction × TxList :=
  ((l.txs.forward threshold).1, { l with txs := (l.txs.forward threshold).2 })

def cap (l : TxList) (threshold : Nat) : List Transaction × TxList :=
  ((l.txs.cap threshold).1, { l with txs := (l.txs.cap threshold).2 })

def ready (l : TxList) (start : UInt64) : List Transaction × TxList :=
  ((l.txs.ready start).1, { l with txs := (l.txs.ready start).2 })

/-- `math.MaxUint64` if the list is empty. -/
def lowestNonce (removed : List Transaction) : UInt64 :=
  removed.foldl (fun lowest tx => if lowest > tx.accountNonce then tx.accountNonce else lowest)
    (UInt64.ofNat (2 ^ 64 - 1))

/-- The transactions of a map that cost more, or use more gas, than the limits, those that a
strict list then invalidates, and the rest. -/
def filterTxs (strict : Bool) (m : TxSortedMap) (costLimit : Int) (gasLimit : UInt64) :
    List Transaction × List Transaction × TxSortedMap :=
  let (removed, m) := m.filter fun tx => tx.cost > costLimit || tx.gasLimit > gasLimit
  if strict && !removed.isEmpty then
    let (invalids, m) := m.filter fun tx => tx.accountNonce > lowestNonce removed
    (removed, invalids, m)
  else (removed, [], m)

/-- `Filter`, which does nothing if the caps are within the limits. -/
def filter (l : TxList) (costLimit : Int) (gasLimit : UInt64) :
    List Transaction × List Transaction × TxList :=
  if l.costcap ≤ costLimit && l.gascap ≤ gasLimit then ([], [], l)
  else
    let (removed, invalids, m) := filterTxs l.strict l.txs costLimit gasLimit
    (removed, invalids, { l with txs := m, costcap := costLimit, gascap := gasLimit })

/-- `Remove`: `none` if the nonce is not present, else what a strict list invalidates. -/
def remove (l : TxList) (tx : Transaction) : Option (List Transaction × TxList) :=
  let (removed, m) := l.txs.remove tx.accountNonce
  if !removed then none
  else if l.strict then
    let (invalids, m) := m.filter fun t => t.accountNonce > tx.accountNonce
    some (invalids, { l with txs := m })
  else some ([], { l with txs := m })

/-! ### Specifications -/

theorem add_eq_some {l l' : TxList} {priceBump : UInt64} {old : Option Transaction}
    (h : l.add tx priceBump = some (old, l')) :
    l.get tx.accountNonce = old ∧ l' = l.insert tx := by
  unfold add at h
  cases hget : l.get tx.accountNonce with
  | none =>
    rw [hget] at h
    cases h
    exact ⟨rfl, rfl⟩
  | some t =>
    rw [hget] at h
    dsimp only at h
    split_ifs at h
    cases h
    exact ⟨rfl, rfl⟩

theorem add_of_get_eq_none {l : TxList} (priceBump : UInt64) (h : l.get tx.accountNonce = none) :
    l.add tx priceBump = some (none, l.insert tx) := by
  simp [add, h]

theorem get_insert (l : TxList) (tx : Transaction) :
    (l.insert tx).get = Function.update l.get tx.accountNonce (some tx) := by
  funext nonce
  rw [Function.update_apply]
  exact l.txs.get_put tx nonce

theorem splits_filterTxs (strict : Bool) (m : TxSortedMap) (costLimit : Int) (gasLimit : UInt64) :
    m.Splits ((filterTxs strict m costLimit gasLimit).1 ++
        (filterTxs strict m costLimit gasLimit).2.1)
      (filterTxs strict m costLimit gasLimit).2.2 := by
  have h1 := m.splits_filter fun tx => tx.cost > costLimit || tx.gasLimit > gasLimit
  unfold filterTxs
  dsimp only
  split
  · exact h1.trans (TxSortedMap.splits_filter _ _)
  · exact h1.trans (TxSortedMap.Splits.refl _)

/-- What every removal from a list does. -/
structure Takes (l : TxList) (removed : List Transaction) (l' : TxList) : Prop where
  splits : l.txs.Splits removed l'.txs
  strict : l'.strict = l.strict

section Removals

variable {l l' : TxList} {removed invalids : List Transaction}

theorem takes_forward (h : l.forward nonce = (removed, l')) : l.Takes removed l' := by
  cases h
  exact ⟨l.txs.splits_forward nonce, rfl⟩

theorem takes_cap {size : Nat} (h : l.cap size = (removed, l')) : l.Takes removed l' := by
  cases h
  exact ⟨l.txs.splits_cap size, rfl⟩

theorem takes_ready {start : UInt64} (h : l.ready start = (removed, l')) : l.Takes removed l' := by
  cases h
  exact ⟨l.txs.splits_ready start, rfl⟩

theorem takes_filter {costLimit : Int} {gasLimit : UInt64}
    (h : l.filter costLimit gasLimit = (removed, invalids, l')) :
    l.Takes (removed ++ invalids) l' := by
  unfold filter at h
  split at h
  · cases h
    exact ⟨TxSortedMap.Splits.refl _, rfl⟩
  · cases h
    exact ⟨splits_filterTxs _ _ _ _, rfl⟩

theorem invalids_filter {costLimit : Int} {gasLimit : UInt64} (hs : l.strict = false)
    (h : l.filter costLimit gasLimit = (removed, invalids, l')) : invalids = [] := by
  unfold filter at h
  split at h
  · cases h
    rfl
  · rw [hs] at h
    cases h
    rfl

end Removals

theorem remove_eq_none_iff {l : TxList} : l.remove tx = none ↔ l.get tx.accountNonce = none := by
  unfold remove TxSortedMap.remove get
  dsimp only
  cases l.txs.get tx.accountNonce with
  | none => simp
  | some t => by_cases hs : l.strict <;> simp [hs]

theorem invalids_remove {l l' : TxList} {invalids : List Transaction} (hs : l.strict = false)
    (h : l.remove tx = some (invalids, l')) : invalids = [] := by
  unfold remove at h
  rw [hs] at h
  dsimp only at h
  split_ifs at h with hp hstrict
  · cases hstrict
  · cases h
    rfl

theorem takes_remove {l l' : TxList} {invalids : List Transaction}
    (hget : l.get tx.accountNonce = some t) (h : l.remove tx = some (invalids, l')) :
    l.Takes (t :: invalids) l' := by
  have h1 := TxSortedMap.splits_remove hget
  unfold remove at h
  dsimp only at h
  split_ifs at h with hs hstrict
  · cases h
    exact ⟨h1.trans (TxSortedMap.splits_filter _ _), rfl⟩
  · cases h
    exact ⟨h1.trans (TxSortedMap.Splits.refl _), rfl⟩

end TxList

end GethComments
