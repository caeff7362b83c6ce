import GethComments.Core.TxList
import Mathlib.Data.List.Sort

/-!
# Ranges of nonces

The nonces of an account's pending transactions have no gaps. What the operations of a list
do to such a range.

* `Spans`: from some nonce on, the nonces of the transactions are a range;
* `TxSortedMap.spans_iff`: a map whose nonces are a range, as a list;
* `TxList.spans_forward`, `TxList.spans_remove`, `TxList.spans_filter`, `TxList.spans_cap`: what
  the removals leave of a range;
* `TxSortedMap.consecutive_nonces`: the transactions that are ready are a range;
* `TxList.filter_exact`: `Filter` is exact after any history of calls.
-/

namespace GethComments

open List

/-- From `c` on the nonces with a transaction are those from `b` up to `e`. -/
def Spans (f : UInt64 → Option Transaction) (c b e : Nat) : Prop :=
  ∀ n : UInt64, c ≤ n.toNat → ((f n).isSome ↔ b ≤ n.toNat ∧ n.toNat < e)

variable {f : UInt64 → Option Transaction}

theorem Spans.isSome {b e : Nat} (h : Spans f 0 b e) (n : UInt64) :
    (f n).isSome ↔ b ≤ n.toNat ∧ n.toNat < e :=
  h n (Nat.zero_le _)

theorem Spans.mono {b e : Nat} (h : Spans f 0 b e) (c : Nat) : Spans f c (max b c) e := by
  intro n hn
  rw [h.isSome]
  omega

theorem toNat_nonce_succ {n : UInt64} (h : n.toNat + 1 < 2 ^ 64) : (n + 1).toNat = n.toNat + 1 := by
  rw [UInt64.toNat_add]
  exact Nat.mod_eq_of_lt h

theorem nonce_of_getLast? {txs : List Transaction} {first : Nat}
    (htxs : txs.map (fun t => t.accountNonce.toNat) = range' first txs.length) (hne : txs ≠ []) :
    ∃ t, txs.getLast? = some t ∧ t.accountNonce.toNat + 1 = first + txs.length := by
  have hlen : txs.length ≠ 0 := fun h0 => hne (length_eq_zero_iff.mp h0)
  obtain ⟨t, ht⟩ : ∃ t, txs.getLast? = some t := ⟨_, getLast?_eq_some_getLast hne⟩
  have hlast := congrArg getLast? htxs
  rw [getLast?_map, ht, getLast?_range', if_neg hlen] at hlast
  have hnonce : t.accountNonce.toNat = first + txs.length - 1 := Option.some.inj hlast
  exact ⟨t, ht, by omega⟩

theorem Spans.replace {c b e : Nat} (h : Spans f c b e) {tx : Transaction} {nonce : UInt64}
    (hn : (f nonce).isSome) :
    Spans (Function.update f nonce (some tx)) c b e := by
  intro n hc
  rw [← h n hc]
  by_cases hne : n = nonce
  · subst hne
    rw [Function.update_self]
    simpa using hn
  · rw [Function.update_of_ne hne]

namespace TxSortedMap

/-! ## Maps -/

theorem get_ext {m m' : TxSortedMap} {nonce : UInt64} {p : Transaction → Prop}
    (h : ∀ t, t ∈ m'.txs ↔ t ∈ m.txs ∧ p t) (t : Transaction) :
    m'.get nonce = some t ↔ m.get nonce = some t ∧ p t := by
  rw [get_eq_some_iff, get_eq_some_iff, h]
  tauto

theorem mem_forward (m : TxSortedMap) (threshold : UInt64) (t : Transaction) :
    t ∈ (m.forward threshold).2.txs ↔ t ∈ m.txs ∧ ¬ t.accountNonce < threshold := by
  obtain ⟨txs, hsorted⟩ := m
  show t ∈ txs.dropWhile (fun t => t.accountNonce < threshold) ↔ t ∈ txs ∧ _
  induction txs with
  | nil => simp
  | cons u us ih =>
    obtain ⟨hu, hus⟩ := pairwise_cons.mp hsorted
    by_cases hlt : u.accountNonce < threshold
    · rw [dropWhile_cons_of_pos (by simpa using hlt), ih hus, mem_cons]
      constructor
      · exact fun h => ⟨Or.inr h.1, h.2⟩
      · rintro ⟨rfl | ht, hn⟩
        · exact absurd hlt hn
        · exact ⟨ht, hn⟩
    · rw [dropWhile_cons_of_neg (by simpa using hlt)]
      refine ⟨fun ht => ⟨ht, ?_⟩, And.left⟩
      rcases mem_cons.mp ht with rfl | ht
      · exact hlt
      · exact fun h => hlt (UInt64.lt_trans (hu t ht) h)

theorem spans_iff {m : TxSortedMap} {b k : Nat} (hk : b + k ≤ 2 ^ 64) :
    Spans m.get 0 b (b + k) ↔ m.txs.map (fun t => t.accountNonce.toNat) = range' b k := by
  have hmem : ∀ n : UInt64, (m.get n).isSome ↔
      n.toNat ∈ m.txs.map fun t => t.accountNonce.toNat := by
    intro n
    simp only [Option.isSome_iff_exists, get_eq_some_iff, mem_map, UInt64.toNat_inj]
  constructor
  · intro h
    have hsorted : (m.txs.map fun t => t.accountNonce.toNat).Pairwise (· < ·) :=
      pairwise_map.mpr (m.sorted.imp fun h => UInt64.lt_iff_toNat_lt.mp h)
    refine hsorted.eq_of_mem_iff (pairwise_lt_range' (s := b) 1 Nat.one_pos) fun i => ?_
    rw [mem_range'_1]
    constructor
    · intro hi
      obtain ⟨t, ht, rfl⟩ := mem_map.mp hi
      exact (h.isSome _).mp ((hmem _).mpr hi)
    · intro hi
      have hto : (UInt64.ofNat i).toNat = i := by
        rw [UInt64.toNat_ofNat']
        exact Nat.mod_eq_of_lt (by omega)
      have := (hmem (UInt64.ofNat i)).mp ((h.isSome _).mpr (by omega))
      rwa [hto] at this
  · intro h n _
    rw [hmem, h, mem_range'_1]

theorem consecutive_nonces {ts : List Transaction} {next : UInt64}
    (hts : ∀ t ∈ ts, t.accountNonce.toNat + 1 < 2 ^ 64) :
    (consecutive next ts).1.map (fun t => t.accountNonce.toNat) =
      range' next.toNat (consecutive next ts).1.length := by
  induction ts generalizing next with
  | nil => rfl
  | cons t ts ih =>
    unfold consecutive
    split_ifs with heq
    · have hnext : (next + 1).toNat = next.toNat + 1 := by
        have := hts t mem_cons_self
        rw [heq] at this
        rw [UInt64.toNat_add, UInt64.toNat_one]
        exact Nat.mod_eq_of_lt this
      have := @ih (next + 1) fun u hu => hts u (mem_cons_of_mem t hu)
      simp only [map_cons, length_cons, range'_succ, this, heq, hnext]
    · rfl

theorem ready_cases (m : TxSortedMap) (start : UInt64) :
    (m.ready start).1 = [] ∨ ∃ t, m.txs.head? = some t ∧ t.accountNonce ≤ start ∧
      (m.ready start).1 = (consecutive t.accountNonce m.txs).1 := by
  unfold ready
  cases hh : m.txs.head? with
  | none => exact Or.inl rfl
  | some t =>
    dsimp only
    split
    · exact Or.inl rfl
    · next h => exact Or.inr ⟨t, rfl, UInt64.not_lt.mp h, rfl⟩

end TxSortedMap

namespace TxList

variable {l l' : TxList} {removed invalids : List Transaction} {c b e : Nat}

/-! ## Lists -/

theorem get_forward (l : TxList) (threshold n : UInt64) (t : Transaction) :
    (l.forward threshold).2.get n = some t ↔ l.get n = some t ∧ ¬ t.accountNonce < threshold :=
  TxSortedMap.get_ext (l.txs.mem_forward threshold) t

theorem isSome_get (l l' : TxList) {n : UInt64} (p : UInt64 → Prop)
    (h : ∀ t, l'.get n = some t ↔ l.get n = some t ∧ p t.accountNonce) :
    (l'.get n).isSome ↔ (l.get n).isSome ∧ p n := by
  simp only [Option.isSome_iff_exists, h]
  constructor
  · rintro ⟨t, ht, hp⟩
    exact ⟨⟨t, ht⟩, (TxSortedMap.get_eq_some_iff.mp ht).2 ▸ hp⟩
  · rintro ⟨⟨t, ht⟩, hp⟩
    exact ⟨t, ht, (TxSortedMap.get_eq_some_iff.mp ht).2.symm ▸ hp⟩

theorem spans_forward {threshold : UInt64} (h : Spans l.get threshold.toNat b e)
    (hb : threshold.toNat ≤ b) : Spans (l.forward threshold).2.get 0 b e := by
  intro n _
  have hsome : ((l.forward threshold).2.get n).isSome ↔ (l.get n).isSome ∧ ¬ n < threshold :=
    isSome_get _ _ (fun n => ¬ n < threshold) (l.get_forward threshold n)
  rw [hsome, UInt64.lt_iff_toNat_lt]
  by_cases hn : threshold.toNat ≤ n.toNat
  · rw [h n hn]
    omega
  · omega

theorem spans_below {n : Nat} (h : Spans l.get 0 b e) (hn : n ≤ e)
    (hmem : ∀ t, t ∈ l'.txs.txs ↔ t ∈ l.txs.txs ∧ t.accountNonce.toNat < n) :
    Spans l'.get 0 b n := by
  intro m _
  rw [isSome_get l l' (fun k => k.toNat < n) (TxSortedMap.get_ext hmem), h.isSome]
  omega

theorem spans_remove {tx : Transaction} (hs : l.strict = true) (h : Spans l.get 0 b e)
    (hr : l.remove tx = some (invalids, l')) :
    Spans l'.get 0 b tx.accountNonce.toNat ∧ b ≤ tx.accountNonce.toNat ∧
      tx.accountNonce.toNat < e ∧ ∀ t ∈ invalids, l.get t.accountNonce = some t := by
  have hget : (l.get tx.accountNonce).isSome := by
    rw [← Option.ne_none_iff_isSome, ne_eq, ← remove_eq_none_iff, hr]
    exact Option.some_ne_none _
  have hspan := (h.isSome _).mp hget
  unfold remove at hr
  rw [hs] at hr
  dsimp only at hr
  rw [if_pos rfl] at hr
  split_ifs at hr
  cases hr
  refine ⟨spans_below h hspan.2.le fun t => ?_, hspan.1, hspan.2, fun t ht => ?_⟩
  · simp only [TxSortedMap.filter, TxSortedMap.keep, TxSortedMap.remove, mem_filter,
      Bool.not_eq_true', decide_eq_true_eq, decide_eq_false_iff_not, gt_iff_lt,
      UInt64.lt_iff_toNat_lt, ne_eq, ← UInt64.toNat_inj, and_assoc]
    refine and_congr_right fun _ => ?_
    omega
  · have hm := (mem_filter.mp ht).1
    exact TxSortedMap.get_eq_some_iff.mpr ⟨(mem_filter.mp hm).1, rfl⟩

theorem eq_nil_of_spans (h : Spans l.get 0 b b) : l.txs.txs = [] := by
  rw [eq_nil_iff_forall_not_mem]
  intro t ht
  have hget : l.get t.accountNonce = some t := TxSortedMap.get_eq_some_iff.mpr ⟨ht, rfl⟩
  have hrange := (h.isSome _).mp (Option.isSome_of_eq_some hget)
  omega

theorem spans_cap (h : Spans l.get 0 b e) (hbe : b ≤ e) (he : e < 2 ^ 64)
    (hc : l.cap (l.len - 1) = (removed, l')) :
    removed = [] ∧ Spans l'.get 0 b e ∨ ∃ t, removed = [t] ∧ t.accountNonce.toNat + 1 = e ∧
      b ≤ t.accountNonce.toNat ∧ Spans l'.get 0 b t.accountNonce.toNat := by
  obtain ⟨k, rfl⟩ := Nat.exists_eq_add_of_le hbe
  have hlist := (TxSortedMap.spans_iff he.le).mp h
  cases k with
  | zero =>
    have hnil := eq_nil_of_spans h
    cases hc
    refine Or.inl ⟨by simp [TxSortedMap.cap, hnil], fun n _ => ?_⟩
    simp [TxList.get, TxSortedMap.get, TxSortedMap.cap, TxSortedMap.keep, hnil]
  | succ k =>
    rw [range'_1_concat] at hlist
    obtain ⟨ts, us, htxs, hts, hus⟩ := map_eq_append_iff.mp hlist
    obtain ⟨t, rfl, ht⟩ := map_eq_singleton_iff.mp hus
    have hlen : l.len - 1 = ts.length := by simp [TxList.len, TxSortedMap.len, htxs]
    rw [hlen] at hc
    cases hc
    refine Or.inr ⟨t, by simp [TxSortedMap.cap, htxs], by omega, by omega, ?_⟩
    rw [ht]
    refine (TxSortedMap.spans_iff (by omega)).mpr ?_
    simpa [TxSortedMap.cap, TxSortedMap.keep, htxs] using hts

/-! ## Limits -/

/-- A transaction that the state of its sender can pay and a block can hold. -/
def Payable (costLimit : Int) (gasLimit : UInt64) (t : Transaction) : Prop :=
  t.cost ≤ costLimit ∧ t.gasLimit ≤ gasLimit

/-- What `Filter` removes. -/
def unpayable (costLimit : Int) (gasLimit : UInt64) (t : Transaction) : Bool :=
  t.cost > costLimit || t.gasLimit > gasLimit

variable {costLimit : Int} {gasLimit : UInt64} {t : Transaction}

theorem unpayable_eq_false :
    unpayable costLimit gasLimit t = false ↔ Payable costLimit gasLimit t := by
  simp only [unpayable, Bool.or_eq_false_iff, decide_eq_false_iff_not]
  exact and_congr Int.not_lt UInt64.not_lt

theorem lowestNonce_lt {n : UInt64} :
    lowestNonce removed < n ↔ ∃ u ∈ removed, u.accountNonce < n := by
  have hfold : ∀ (ts : List Transaction) (low : UInt64),
      ts.foldl (fun lowest tx => if lowest > tx.accountNonce then tx.accountNonce else lowest)
        low < n ↔ low < n ∨ ∃ u ∈ ts, u.accountNonce < n := by
    intro ts
    induction ts with
    | nil => simp
    | cons u us ih =>
      intro low
      rw [foldl_cons, ih, exists_mem_cons_iff, ← or_assoc]
      refine or_congr_left ?_
      simp only [gt_iff_lt, UInt64.lt_iff_toNat_lt, apply_ite UInt64.toNat]
      split <;> omega
  have hmax : ¬ UInt64.ofNat (2 ^ 64 - 1) < n := by
    have := n.toNat_lt
    rw [UInt64.lt_iff_toNat_lt, show (UInt64.ofNat (2 ^ 64 - 1)).toNat = 2 ^ 64 - 1 from rfl]
    omega
  rw [lowestNonce, hfold, or_iff_right hmax]

/-- If all is payable nothing is removed; else a strict list also loses all above the lowest
nonce that is removed. -/
theorem filterTxs_eq (strict : Bool) (m : TxSortedMap) (costLimit : Int) (gasLimit : UInt64) :
    filterTxs strict m costLimit gasLimit =
      if strict && !(m.txs.filter (unpayable costLimit gasLimit)).isEmpty then
        (m.txs.filter (unpayable costLimit gasLimit),
          (m.filter (unpayable costLimit gasLimit)).2.filter fun tx =>
            tx.accountNonce > lowestNonce (m.txs.filter (unpayable costLimit gasLimit)))
      else (m.txs.filter (unpayable costLimit gasLimit), [],
        (m.filter (unpayable costLimit gasLimit)).2) := rfl

/-- What a full pass of `Filter` removes, invalidates and leaves. A strict list also loses what
follows a transaction that it removes. -/
structure Filters (strict : Bool) (txs : List Transaction) (costLimit : Int) (gasLimit : UInt64)
    (removed invalids rest : List Transaction) : Prop where
  mem_removed : ∀ t, t ∈ removed ↔ t ∈ txs ∧ ¬ Payable costLimit gasLimit t
  mem_invalids : ∀ t, t ∈ invalids ↔ (t ∈ txs ∧ Payable costLimit gasLimit t) ∧
    strict = true ∧ ∃ u ∈ removed, u.accountNonce < t.accountNonce
  mem_rest : ∀ t, t ∈ rest ↔ (t ∈ txs ∧ Payable costLimit gasLimit t) ∧
    ¬ (strict = true ∧ ∃ u ∈ removed, u.accountNonce < t.accountNonce)

theorem filters_filterTxs (strict : Bool) (m : TxSortedMap) (costLimit : Int) (gasLimit : UInt64) :
    Filters strict m.txs costLimit gasLimit (filterTxs strict m costLimit gasLimit).1
      (filterTxs strict m costLimit gasLimit).2.1
        (filterTxs strict m costLimit gasLimit).2.2.txs := by
  have hrem : ∀ t, t ∈ m.txs.filter (unpayable costLimit gasLimit) ↔
      t ∈ m.txs ∧ ¬ Payable costLimit gasLimit t := fun t => by
    rw [mem_filter, ← unpayable_eq_false, Bool.not_eq_false]
  have hleft : ∀ t, t ∈ (m.filter (unpayable costLimit gasLimit)).2.txs ↔
      t ∈ m.txs ∧ Payable costLimit gasLimit t := fun t => by
    rw [← unpayable_eq_false, ← Bool.not_eq_true']
    exact mem_filter
  rw [filterTxs_eq]
  generalize m.txs.filter (unpayable costLimit gasLimit) = removed at hrem ⊢
  split
  · next hs =>
    have hlow : ∀ t : Transaction, decide (t.accountNonce > lowestNonce removed) = true ↔
        strict = true ∧ ∃ u ∈ removed, u.accountNonce < t.accountNonce := fun t => by
      rw [decide_eq_true_eq, gt_iff_lt, lowestNonce_lt, and_iff_right (by simp_all)]
    refine ⟨hrem, fun t => ?_, fun t => ?_⟩
    · rw [← hleft, ← hlow]
      exact mem_filter
    · rw [← hleft, ← hlow, Bool.not_eq_true, ← Bool.not_eq_true']
      exact mem_filter
  · next hs =>
    have hno : ∀ t : Transaction,
        ¬ (strict = true ∧ ∃ u ∈ removed, u.accountNonce < t.accountNonce) := by
      rintro t ⟨rfl, u, hu, -⟩
      simp [isEmpty_iff.mp (by simpa using hs)] at hu
    refine ⟨hrem, fun t => ?_, fun t => ?_⟩
    · simp [hno]
    · rw [and_iff_left (hno t)]
      exact hleft t

/-- `Filter` returns at once, or makes a full pass and lowers the caps. -/
theorem filter_cases (hf : l.filter costLimit gasLimit = (removed, invalids, l')) :
    ((l.costcap ≤ costLimit ∧ l.gascap ≤ gasLimit) ∧ removed = [] ∧ invalids = [] ∧ l' = l) ∨
      Filters l.strict l.txs.txs costLimit gasLimit removed invalids l'.txs.txs ∧
        l'.costcap = costLimit ∧ l'.gascap = gasLimit := by
  unfold TxList.filter at hf
  split at hf
  · next hcap =>
    cases hf
    rw [Bool.and_eq_true, decide_eq_true_eq, decide_eq_true_eq] at hcap
    exact Or.inl ⟨hcap, rfl, rfl, rfl⟩
  · cases hf
    exact Or.inr ⟨filters_filterTxs _ _ _ _, rfl, rfl⟩

/-- No transaction is above the caps of its list. -/
def Capped (l : TxList) : Prop := ∀ t ∈ l.txs.txs, Payable l.costcap l.gascap t

theorem capped_newTxList (strict : Bool) : (newTxList strict).Capped := by
  intro t ht
  cases ht

theorem Capped.insert (h : l.Capped) (tx : Transaction) : (l.insert tx).Capped := by
  intro t ht
  show t.cost ≤ (if l.costcap < tx.cost then tx.cost else l.costcap) ∧
    t.gasLimit ≤ (if l.gascap < tx.gasLimit then tx.gasLimit else l.gascap)
  rcases TxSortedMap.mem_putList ht with rfl | ht
  · constructor
    · split <;> omega
    · split
      · exact UInt64.le_refl _
      · next hlt => exact UInt64.not_lt.mp hlt
  · obtain ⟨hcost, hgas⟩ := h t ht
    constructor
    · split <;> omega
    · split
      · next hlt => exact UInt64.le_trans hgas (UInt64.le_of_lt hlt)
      · exact hgas

theorem Capped.of_subset (h : l.Capped) (hsub : l'.txs.txs ⊆ l.txs.txs)
    (hcost : l'.costcap = l.costcap) (hgas : l'.gascap = l.gascap) : l'.Capped := by
  intro t ht
  rw [hcost, hgas]
  exact h t (hsub ht)

theorem Capped.takes (h : l.Capped) (ht : l.Takes removed l') (hcost : l'.costcap = l.costcap)
    (hgas : l'.gascap = l.gascap) : l'.Capped :=
  h.of_subset (fun _ hm => ht.splits.subset (mem_append_right _ hm)) hcost hgas

theorem filters_of_payable (h : ∀ t ∈ l.txs.txs, Payable costLimit gasLimit t)
    (hf : l.filter costLimit gasLimit = (removed, invalids, l')) :
    Filters l.strict l.txs.txs costLimit gasLimit removed invalids l'.txs.txs := by
  rcases filter_cases hf with ⟨-, rfl, rfl, rfl⟩ | ⟨hfs, -⟩
  · refine ⟨fun t => ?_, fun t => ?_, fun t => ?_⟩
    · simpa using h t
    · simp
    · simpa using h t
  · exact hfs

/-- The early return changes nothing, as the caps bound all of a list. -/
theorem Capped.filters (h : l.Capped) (hf : l.filter costLimit gasLimit = (removed, invalids, l')) :
    Filters l.strict l.txs.txs costLimit gasLimit removed invalids l'.txs.txs := by
  rcases filter_cases hf with ⟨hcap, -⟩ | ⟨hfs, -⟩
  · refine filters_of_payable (fun t ht => ?_) hf
    exact ⟨(h t ht).1.trans hcap.1, UInt64.le_trans (h t ht).2 hcap.2⟩
  · exact hfs

theorem Capped.filter (h : l.Capped) (hf : l.filter costLimit gasLimit = (removed, invalids, l')) :
    l'.Capped ∧ ∀ t ∈ l'.txs.txs, Payable costLimit gasLimit t := by
  have hpay : ∀ t ∈ l'.txs.txs, Payable costLimit gasLimit t := fun t ht =>
    (((h.filters hf).mem_rest t).mp ht).1.2
  refine ⟨?_, hpay⟩
  rcases filter_cases hf with ⟨-, -, -, rfl⟩ | ⟨-, rfl, rfl⟩
  · exact h
  · exact hpay

theorem mem_filter_of_payable (hs : l.strict = false)
    (hf : l.filter costLimit gasLimit = (removed, invalids, l')) (ht : t ∈ l.txs.txs)
    (hp : Payable costLimit gasLimit t) : t ∈ l'.txs.txs := by
  rcases filter_cases hf with ⟨-, -, -, rfl⟩ | ⟨hfs, -⟩
  · exact ht
  · exact (hfs.mem_rest t).mpr ⟨⟨ht, hp⟩, by simp [hs]⟩

theorem get_filter_of_payable (h : ∀ t ∈ l.txs.txs, Payable costLimit gasLimit t)
    (hf : l.filter costLimit gasLimit = (removed, invalids, l')) : l'.get = l.get := by
  have hfs := filters_of_payable h hf
  have hmem : ∀ t, t ∈ l'.txs.txs ↔ t ∈ l.txs.txs ∧ True := fun t => by
    rw [hfs.mem_rest, and_true]
    refine ⟨fun ht => ht.1.1, fun ht => ⟨⟨ht, h t ht⟩, ?_⟩⟩
    rintro ⟨-, u, hu, -⟩
    have hu := (hfs.mem_removed u).mp hu
    exact hu.2 (h u hu.1)
  funext n
  exact Option.ext fun t => (TxSortedMap.get_ext hmem t).trans (iff_of_eq (and_true _))

theorem spans_filter (hs : l.strict = true) (h : Spans l.get 0 b e)
    (hf : l.filter costLimit gasLimit = (removed, invalids, l')) :
    ∃ e', Spans l'.get 0 b e' ∧ e' ≤ e ∧ (b ≤ e → b ≤ e') ∧
      ∀ t ∈ invalids, l.get t.accountNonce = some t := by
  have hget : ∀ {t}, t ∈ l.txs.txs → l.get t.accountNonce = some t := fun ht =>
    TxSortedMap.get_eq_some_iff.mpr ⟨ht, rfl⟩
  rcases filter_cases hf with ⟨-, -, rfl, rfl⟩ | ⟨hfs, -⟩
  · exact ⟨e, h, le_rfl, id, by simp⟩
  have hinv : ∀ t ∈ invalids, l.get t.accountNonce = some t := fun t ht =>
    hget ((hfs.mem_invalids t).mp ht).1.1
  by_cases hpay : ∀ t ∈ l.txs.txs, Payable costLimit gasLimit t
  · exact ⟨e, get_filter_of_payable hpay hf ▸ h, le_rfl, id, hinv⟩
  · -- the removed transaction of the lowest nonce
    simp only [not_forall] at hpay
    obtain ⟨w, hw, hnot⟩ := hpay
    obtain ⟨u, hu, hlow⟩ := Set.exists_min_image {t | t ∈ removed} (fun t => t.accountNonce.toNat)
      (finite_toSet removed) ⟨w, (hfs.mem_removed w).mpr ⟨hw, hnot⟩⟩
    obtain ⟨hul, hun⟩ := (hfs.mem_removed u).mp hu
    have hrange := (h.isSome u.accountNonce).mp (Option.isSome_of_eq_some (hget hul))
    refine ⟨_, spans_below h hrange.2.le fun t => ?_, hrange.2.le, fun _ => hrange.1, hinv⟩
    rw [hfs.mem_rest, and_assoc]
    refine and_congr_right fun ht => ?_
    constructor
    · rintro ⟨hp, hafter⟩
      have hle : ¬ u.accountNonce < t.accountNonce := fun hlt => hafter ⟨hs, u, hu, hlt⟩
      refine UInt64.lt_iff_toNat_lt.mp (UInt64.lt_of_le_of_ne (UInt64.not_lt.mp hle) fun heq => ?_)
      have htu : some t = some u := by rw [← hget ht, ← hget hul, heq]
      exact hun (Option.some.inj htu ▸ hp)
    · intro hlt
      constructor
      · by_contra hp
        have := hlow t ((hfs.mem_removed t).mpr ⟨ht, hp⟩)
        omega
      · rintro ⟨-, v, hv, hvt⟩
        have := hlow v hv
        rw [UInt64.lt_iff_toNat_lt] at hvt
        omega

/-! ## Any history of a list -/

theorem remove_subset (l : TxList) (tx : Transaction) :
    let l' := ((l.remove tx).map Prod.snd).getD l
    l'.txs.txs ⊆ l.txs.txs ∧ l'.costcap = l.costcap ∧ l'.gascap = l.gascap ∧
      l'.strict = l.strict := by
  unfold TxList.remove
  dsimp only
  split
  · exact ⟨fun _ ht => ht, rfl, rfl, rfl⟩
  · split
    · exact ⟨fun t ht => (mem_filter.mp (mem_filter.mp ht).1).1, rfl, rfl, rfl⟩
    · exact ⟨fun t ht => (mem_filter.mp ht).1, rfl, rfl, rfl⟩

inductive Op where
  | add (tx : Transaction) (priceBump : UInt64)
  | forward (threshold : UInt64)
  | filter (costLimit : Int) (gasLimit : UInt64)
  | cap (threshold : Nat)
  | remove (tx : Transaction)
  | ready (start : UInt64)

def step (l : TxList) : Op → TxList
  | .add tx priceBump => ((l.add tx priceBump).map Prod.snd).getD l
  | .forward threshold => (l.forward threshold).2
  | .filter costLimit gasLimit => (l.filter costLimit gasLimit).2.2
  | .cap threshold => (l.cap threshold).2
  | .remove tx => ((l.remove tx).map Prod.snd).getD l
  | .ready start => (l.ready start).2

theorem Capped.step (h : l.Capped) (op : Op) :
    (l.step op).Capped ∧ (l.step op).strict = l.strict := by
  cases op with
  | add tx priceBump =>
    cases ha : l.add tx priceBump with
    | none => simpa [TxList.step, ha] using h
    | some r =>
      obtain ⟨-, hl⟩ := add_eq_some ha
      simp only [TxList.step, ha, Option.map_some, Option.getD_some, hl]
      exact ⟨h.insert tx, rfl⟩
  | forward threshold => exact ⟨h.takes (takes_forward rfl) rfl rfl, rfl⟩
  | filter costLimit gasLimit => exact ⟨(h.filter rfl).1, (takes_filter rfl).strict⟩
  | cap threshold => exact ⟨h.takes (takes_cap rfl) rfl rfl, rfl⟩
  | remove tx =>
    obtain ⟨hsub, hcost, hgas, hstrict⟩ := remove_subset l tx
    exact ⟨h.of_subset hsub hcost hgas, hstrict⟩
  | ready start => exact ⟨h.takes (takes_ready rfl) rfl rfl, rfl⟩

theorem Capped.run (h : l.Capped) (ops : List Op) :
    (ops.foldl TxList.step l).Capped ∧ (ops.foldl TxList.step l).strict = l.strict := by
  induction ops generalizing l with
  | nil => exact ⟨h, rfl⟩
  | cons op ops ih =>
    obtain ⟨hcap, hstrict⟩ := h.step op
    exact ⟨(ih hcap).1, (ih hcap).2.trans hstrict⟩

/-- **The filter is exact after any history**, whether or not the caps let it return early. -/
theorem filter_exact (strict : Bool) (ops : List Op) (costLimit : Int) (gasLimit : UInt64) :
    let l := ops.foldl step (newTxList strict)
    let (removed, invalids, l') := l.filter costLimit gasLimit
    (∀ t, t ∈ removed ↔ t ∈ l.flatten ∧ (t.cost > costLimit ∨ t.gasLimit > gasLimit)) ∧
      (∀ t, t ∈ invalids ↔ (t ∈ l.flatten ∧ t ∉ removed) ∧
        strict = true ∧ ∃ u ∈ removed, u.accountNonce < t.accountNonce) ∧
      ∀ t, t ∈ l'.flatten ↔ (t ∈ l.flatten ∧ t ∉ removed) ∧ t ∉ invalids := by
  intro l
  obtain ⟨hcap, hstrict⟩ : l.Capped ∧ l.strict = strict := (capped_newTxList strict).run ops
  rcases hf : l.filter costLimit gasLimit with ⟨removed, invalids, l'⟩
  obtain ⟨hrem, hinv, hrest⟩ := hcap.filters hf
  have hpay : ∀ t, t ∈ l.flatten ∧ Payable costLimit gasLimit t ↔ t ∈ l.flatten ∧ t ∉ removed := by
    intro t
    rw [hrem t]
    exact ⟨fun h => ⟨h.1, fun hn => hn.2 h.2⟩, fun h => ⟨h.1, by_contra fun hn => h.2 ⟨h.1, hn⟩⟩⟩
  refine ⟨fun t => ?_, fun t => ?_, fun t => ?_⟩
  · rw [hrem t, Payable, not_and_or, not_le, UInt64.not_le]
    rfl
  · rw [← hpay t, ← hstrict]
    exact hinv t
  · rw [← hpay t, hinv t]
    refine (hrest t).trans (and_congr_right fun hp => not_congr ?_)
    exact ⟨fun h => ⟨hp, h⟩, And.right⟩

end TxList

end GethComments
