import GethComments.Core.TxIndex

/-!
# The heap of prices

What `txPricedList` keeps: it is a heap by price, and every pooled transaction is in it, beside
stale ones.

* `dropStale_spec`: only stale entries are popped, and the counter goes down by as many;
* `Covers`: the pooled transactions are in the heap, except for some;
* `mem_discard`, `Covers.discard`, `Covers.cap`: what leaves the heap is returned;
* `underpriced_eq_false`: a transaction that costs more than a pooled one is not underpriced.
-/

namespace GethComments.TxPricedList

open ContainerHeap List

/-! ## The order -/

variable {t : Transaction}

theorem less_iff {u : Transaction} :
    less t u = true ↔ t.price < u.price ∨ t.price = u.price ∧ u.accountNonce < t.accountNonce := by
  unfold less
  split
  · next h => simp [h]
  · next h =>
    split
    · next h' =>
      have hne : t.price ≠ u.price := by omega
      simp [h, hne]
    · next h' =>
      have heq : t.price = u.price := by omega
      simp [heq]

theorem less_asymm (t u : Transaction) (h : less t u = true) : less u t = false := by
  rw [Bool.eq_false_iff, ne_eq, less_iff]
  rcases less_iff.mp h with hlt | ⟨heq, hlt⟩
  · omega
  · rintro (h' | ⟨-, h'⟩)
    · omega
    · exact UInt64.lt_asymm hlt h'

theorem not_less_trans (t u v : Transaction) (h : less u t = false) (h' : less v u = false) :
    less v t = false := by
  rw [Bool.eq_false_iff, ne_eq, less_iff, not_or, not_and, UInt64.not_lt] at h h' ⊢
  refine ⟨by omega, fun heq => ?_⟩
  exact UInt64.le_trans (h'.2 (by omega)) (h.2 (by omega))

variable [HashFns]

/-! ## Stale entries -/

theorem dropStale_spec (all : TxLookup) (fuel : Nat) (l : TxPricedList) :
    ∃ popped : List Transaction, (popped ++ (dropStale all fuel l).items).Perm l.items ∧
      (∀ t ∈ popped, all.get t.hash = none) ∧
      (dropStale all fuel l).stales = l.stales - popped.length := by
  have hstop : ∃ popped : List Transaction, (popped ++ l.items).Perm l.items ∧
      (∀ t ∈ popped, all.get t.hash = none) ∧ l.stales = l.stales - popped.length :=
    ⟨[], List.Perm.refl _, by simp, by simp⟩
  induction fuel generalizing l with
  | zero => exact hstop
  | succ fuel ih =>
    unfold dropStale
    cases hhead : l.items.head? with
    | none => exact hstop
    | some head =>
      dsimp only
      split
      · exact hstop
      · next hstale =>
        cases hpop : pop less l.items with
        | none => exact hstop
        | some r =>
          obtain ⟨x, items⟩ := r
          obtain ⟨hx, hperm⟩ := pop_eq_some less hpop
          cases hhead.symm.trans hx
          obtain ⟨popped, hp, hnone, hcount⟩ := ih ⟨items, l.stales - 1⟩
            ⟨[], List.Perm.refl _, by simp, by simp⟩
          refine ⟨head :: popped, ?_, ?_, ?_⟩
          · exact (hp.cons head).trans hperm
          · exact forall_mem_cons.mpr ⟨by simpa using hstale, hnone⟩
          · simp only [length_cons, hcount]
            omega

theorem underpriced_spec (l : TxPricedList) (all : TxLookup) (tx : Transaction)
    (isLocal : Transaction → Bool) :
    ∃ popped : List Transaction, (popped ++ (l.underpriced all tx isLocal).2.items).Perm l.items ∧
      (∀ t ∈ popped, all.get t.hash = none) ∧
      (l.underpriced all tx isLocal).2.stales = l.stales - popped.length := by
  have hstale := dropStale_spec all l.items.length l
  unfold underpriced
  split
  · exact ⟨[], List.Perm.refl _, by simp, by simp⟩
  · dsimp only
    split <;> exact hstale

theorem isHeap_dropStale (all : TxLookup) (fuel : Nat) {l : TxPricedList}
    (h : IsHeap less l.items) :
    IsHeap less (dropStale all fuel l).items := by
  induction fuel generalizing l with
  | zero => exact h
  | succ fuel ih =>
    unfold dropStale
    split
    · exact h
    · split
      · exact h
      · split
        · exact h
        · next hpop => exact ih (isHeap_pop less_asymm not_less_trans h hpop)

/-! ## The pooled transactions -/

/-- The heap is in order and every pooled transaction is in it, except for those in `D`. -/
structure Covers (l : TxPricedList) (all : TxLookup) (D : Transaction → Prop) : Prop where
  heap : IsHeap less l.items
  mem : ∀ tx, all.get tx.hash = some tx → D tx ∨ tx ∈ l.items

variable {l : TxPricedList} {all all' : TxLookup} {D D' : Transaction → Prop} {tx : Transaction}

theorem covers_empty (D : Transaction → Prop) : Covers TxPricedList.empty TxLookup.empty D where
  heap := fun c hc0 hc => absurd hc (Nat.not_lt_zero c)
  mem := fun tx h => by cases h

theorem Covers.mono (h : Covers l all D) (hsub : ∀ tx, all'.get tx.hash = some tx → D tx → D' tx)
    (hall : ∀ tx, all'.get tx.hash = some tx → all.get tx.hash = some tx) : Covers l all' D' where
  heap := h.heap
  mem := fun tx htx => (h.mem tx (hall tx htx)).imp_left (hsub tx htx)

theorem Covers.put (h : Covers l all D) (tx : Transaction) : Covers (l.put tx) (all.add tx) D where
  heap := isHeap_push less_asymm not_less_trans h.heap tx
  mem := by
    intro u hu
    have hperm := perm_push less l.items tx
    rw [TxLookup.get_add] at hu
    by_cases hh : u.hash = tx.hash
    · rw [hh, Function.update_self] at hu
      cases hu
      exact Or.inr (hperm.symm.subset mem_cons_self)
    · rw [Function.update_of_ne hh] at hu
      exact (h.mem u hu).imp_right fun hm => hperm.symm.subset (mem_cons_of_mem _ hm)

theorem Covers.putBack (h : Covers l all D) (tx : Transaction) :
    Covers (l.put tx) all fun u => D u ∧ u ≠ tx where
  heap := isHeap_push less_asymm not_less_trans h.heap tx
  mem := by
    intro u hu
    have hperm := perm_push less l.items tx
    by_cases heq : u = tx
    · exact Or.inr (hperm.symm.subset (heq ▸ mem_cons_self))
    · exact (h.mem u hu).imp (fun hD => ⟨hD, heq⟩) fun hm =>
        hperm.symm.subset (mem_cons_of_mem _ hm)

theorem Covers.putAll (txs : List Transaction) (h : Covers l all D) :
    Covers (txs.foldl TxPricedList.put l) all fun u => D u ∧ u ∉ txs := by
  induction txs generalizing l D with
  | nil => exact h.mono (fun tx _ hD => ⟨hD, not_mem_nil⟩) fun _ htx => htx
  | cons t txs ih =>
    refine (ih (h.putBack t)).mono (fun u _ hu => ?_) fun _ htx => htx
    exact ⟨hu.1.1, fun hm => (mem_cons.mp hm).elim hu.1.2 hu.2⟩

theorem get_remove_eq_some {hash : Hash} (h : (all.remove hash).get tx.hash = some tx) :
    all.get tx.hash = some tx := by
  rw [TxLookup.get_remove] at h
  by_cases hh : tx.hash = hash
  · rw [hh, Function.update_self] at h
    cases h
  · rwa [Function.update_of_ne hh] at h

theorem Covers.remove (h : Covers l all D) (hash : Hash) : Covers l (all.remove hash) D :=
  h.mono (fun _ _ hD => hD) fun _ htx => get_remove_eq_some htx

theorem mem_range (h : all.get tx.hash = some tx) : tx ∈ all.range := by
  have hmem : (⟨tx.hash, tx⟩ : Sigma fun _ : Hash => Transaction) ∈ all.all.entries :=
    AList.mem_lookup_iff.mp h
  exact mem_map.mpr ⟨_, hmem, rfl⟩

theorem Covers.removed (h : Covers l all D) (count : Nat) : Covers (l.removed all count) all D := by
  unfold TxPricedList.removed
  dsimp only
  split
  · exact ⟨h.heap, h.mem⟩
  · refine ⟨ContainerHeap.isHeap_init less_asymm not_less_trans _, fun tx htx => Or.inr ?_⟩
    exact (perm_init less all.range).symm.subset (mem_range htx)

theorem Covers.dropStale (h : Covers l all D) (fuel : Nat) :
    Covers (TxPricedList.dropStale all fuel l) all D where
  heap := isHeap_dropStale all fuel h.heap
  mem := by
    intro tx htx
    obtain ⟨popped, hperm, hnone, -⟩ := dropStale_spec all fuel l
    refine (h.mem tx htx).imp_right fun hm => ?_
    rcases mem_append.mp (hperm.symm.subset hm) with hp | hi
    · rw [hnone tx hp] at htx
      cases htx
    · exact hi

theorem Covers.underpriced (h : Covers l all D) (tx : Transaction)
    (isLocal : Transaction → Bool) : Covers (l.underpriced all tx isLocal).2 all D := by
  unfold TxPricedList.underpriced
  split
  · exact h
  · dsimp only
    split <;> exact h.dropStale _

theorem underpriced_eq_false (h : Covers l all fun _ => False) {old : Transaction}
    (hold : all.get old.hash = some old) (hlt : old.price < tx.price)
    (isLocal : Transaction → Bool) : (l.underpriced all tx isLocal).1 = false := by
  unfold TxPricedList.underpriced
  split
  · rfl
  · have hc := h.dropStale l.items.length
    dsimp only
    generalize TxPricedList.dropStale all l.items.length l = l' at hc
    split
    · rfl
    · next cheapest hhead =>
      have hmem := (hc.mem old hold).resolve_left id
      have hself : less cheapest cheapest = false := by simp [less]
      have hle := hc.heap.head_le not_less_trans hhead hmem hself
      rw [Bool.eq_false_iff, ne_eq, less_iff, not_or] at hle
      rw [decide_eq_false_iff_not]
      omega

/-! ## Evictions -/

/-- What the pops of an eviction preserve: stale entries are lost, the others are noted. -/
structure Pops (all : TxLookup) (isLocal : Transaction → Bool)
    (Q : List Transaction × List Transaction × TxPricedList → Prop) : Prop where
  stale : ∀ {drop save l tx items stales}, pop less l.items = some (tx, items) →
    all.get tx.hash = none → Q (drop, save, l) → Q (drop, save, ⟨items, stales⟩)
  save : ∀ {drop save l tx items}, pop less l.items = some (tx, items) →
    Q (drop, save, l) → Q (drop, save ++ [tx], ⟨items, l.stales⟩)
  drop : ∀ {drop save l tx items}, pop less l.items = some (tx, items) →
    (all.get tx.hash).isSome ∧ isLocal tx = false → Q (drop, save, l) →
    Q (drop ++ [tx], save, ⟨items, l.stales⟩)

section

variable {isLocal : Transaction → Bool} {drop save : List Transaction}
  {Q : List Transaction × List Transaction × TxPricedList → Prop}

theorem Pops.discardLoop (hQ : Pops all isLocal Q) (fuel : Nat) (slots : Int)
    (h : Q (drop, save, l)) : Q (TxPricedList.discardLoop all isLocal fuel slots l drop save) := by
  induction fuel generalizing slots l drop save with
  | zero => exact h
  | succ fuel ih =>
    unfold TxPricedList.discardLoop
    split
    · exact h
    · split
      · exact h
      · next hpop =>
        split
        · next hstale => exact ih _ (hQ.stale hpop (by simpa using hstale) h)
        · next hpooled =>
          split
          · exact ih _ (hQ.save hpop h)
          · next hremote =>
            exact ih _ (hQ.drop hpop ⟨by simpa [Option.isSome_iff_ne_none] using hpooled,
              by simpa using hremote⟩ h)

theorem Pops.capLoop (hQ : Pops all isLocal Q) (threshold : Int) (fuel : Nat)
    (h : Q (drop, save, l)) : Q (TxPricedList.capLoop all threshold isLocal fuel l drop save) := by
  induction fuel generalizing l drop save with
  | zero => exact h
  | succ fuel ih =>
    unfold TxPricedList.capLoop
    split
    · exact h
    · next hpop =>
      split
      · next hstale => exact ih (hQ.stale hpop (by simpa using hstale) h)
      · next hpooled =>
        split
        · exact hQ.save hpop h
        · split
          · exact ih (hQ.save hpop h)
          · next hremote =>
            exact ih (hQ.drop hpop ⟨by simpa [Option.isSome_iff_ne_none] using hpooled,
              by simpa using hremote⟩ h)

theorem mem_discard {slots : Int} (ht : t ∈ (l.discard all slots isLocal).1) :
    (all.get t.hash).isSome ∧ isLocal t = false := by
  have hQ : Pops all isLocal fun r => ∀ t ∈ r.1, (all.get t.hash).isSome ∧ isLocal t = false :=
    ⟨fun _ _ h => h, fun _ h => h, fun _ hu h =>
      forall_mem_append.mpr ⟨h, forall_mem_singleton.mpr hu⟩⟩
  exact hQ.discardLoop _ slots (by simp) t ht

theorem Covers.popped {items : List Transaction} {stales : Int} (h : Covers l all D)
    (hpop : pop less l.items = some (t, items)) (hD : ∀ u, D u → D' u)
    (ht : all.get t.hash = none ∨ D' t) : Covers ⟨items, stales⟩ all D' where
  heap := isHeap_pop less_asymm not_less_trans h.heap hpop
  mem := by
    intro u hu
    rcases h.mem u hu with hDu | hm
    · exact Or.inl (hD u hDu)
    · have hperm := (pop_eq_some less hpop).2
      rcases mem_cons.mp (hperm.symm.subset hm) with rfl | hm
      · rcases ht with hnone | hDt
        · rw [hnone] at hu
          cases hu
        · exact Or.inl hDt
      · exact Or.inr hm

theorem pops_covers : Pops all isLocal fun r => Covers r.2.2 all fun u => u ∈ r.1 ∨ u ∈ r.2.1 where
  stale hpop hstale h := h.popped hpop (fun _ hu => hu) (Or.inl hstale)
  save hpop h := h.popped hpop (fun _ => Or.imp_right (mem_append_left _)) (Or.inr (by simp))
  drop hpop _ h := h.popped hpop (fun _ => Or.imp_left (mem_append_left _)) (Or.inr (by simp))

theorem Covers.putSaved (h : Covers l all fun u => u ∈ drop ∨ u ∈ save) :
    Covers (save.foldl TxPricedList.put l) all fun u => u ∈ drop := by
  refine (h.putAll save).mono (fun u _ hu => ?_) fun _ htx => htx
  exact hu.1.resolve_right hu.2

theorem Covers.discard (h : Covers l all fun _ => False) (slots : Int)
    (isLocal : Transaction → Bool) :
    Covers (l.discard all slots isLocal).2 all fun u => u ∈ (l.discard all slots isLocal).1 :=
  Covers.putSaved (pops_covers.discardLoop _ slots (h.mono (fun _ _ => False.elim) fun _ => id))

theorem Covers.cap (h : Covers l all fun _ => False) (threshold : Int)
    (isLocal : Transaction → Bool) :
    Covers (l.cap all threshold isLocal).2 all fun u => u ∈ (l.cap all threshold isLocal).1 :=
  Covers.putSaved (pops_covers.capLoop threshold _ (h.mono (fun _ _ => False.elim) fun _ => id))

end

end GethComments.TxPricedList
