import GethComments.Core.PoolFrame

/-!
# The lists of the pool

Two facts that every operation of the pool keeps beside its place among the legal events.

* `counted_of_books`: the counter of slots is the sum over the table of all transactions;
* `Filled`: no empty list is kept among the pending ones;
* `filled_truncatePending`: truncation takes the last transaction of no account.
-/

namespace GethComments

open List

variable [HashFns]

/-! ## Slots -/

namespace TxLookup

def Counted (t : TxLookup) : Prop := t.slots = ((t.range.map numSlots).sum : Nat)

theorem counted_empty : Counted TxLookup.empty := rfl

theorem counted_add {t : TxLookup} {tx : Transaction} (h : t.Counted)
    (hnew : t.get tx.hash = none) : (t.add tx).Counted := by
  have hentries : (t.all.insert tx.hash tx).entries = ⟨tx.hash, tx⟩ :: t.all.entries :=
    AList.entries_insert_of_notMem (AList.lookup_eq_none.mp hnew)
  have hrange : (t.add tx).range = tx :: t.range :=
    congrArg (map (Sigma.snd (β := fun _ : Hash => Transaction))) hentries
  have hslots : (t.add tx).slots = t.slots + numSlots tx := rfl
  unfold Counted at h ⊢
  rw [hslots, h, hrange, map_cons, sum_cons]
  omega

theorem counted_remove {t : TxLookup} {hash : Hash} {tx : Transaction} (h : t.Counted)
    (hget : t.get hash = some tx) : (t.remove hash).Counted := by
  have hmem : (⟨hash, tx⟩ : Sigma fun _ : Hash => Transaction) ∈ t.all.entries :=
    AList.mem_lookup_iff.mp hget
  obtain ⟨u, l1, l2, hnot, hl, hker⟩ := exists_of_kerase (mem_keys_of_mem hmem)
  have hu : u = tx := by
    have hmem' : (⟨hash, u⟩ : Sigma fun _ : Hash => Transaction) ∈ t.all.entries := by
      rw [hl]
      simp
    exact t.all.nodupKeys.eq_of_mk_mem hmem' hmem
  have hslots : (t.remove hash).slots = t.slots - numSlots tx := by simp [remove, hget]
  have hrange : (t.remove hash).range = (l1 ++ l2).map Sigma.snd :=
    congrArg (map (Sigma.snd (β := fun _ : Hash => Transaction))) hker
  have hall : t.range = (l1 ++ ⟨hash, tx⟩ :: l2).map Sigma.snd := by rw [range, hl, hu]
  unfold Counted at h ⊢
  rw [hslots, h, hrange, hall]
  simp only [map_append, map_cons, sum_append, sum_cons]
  omega

theorem get_event {L : Ledger} {t : TxLookup} (hget : t.get = L.pooled) (e : CMEvent) :
    (t.event e).get = (L.step e).pooled := by
  cases e <;> simp [event, Ledger.step, get_add, get_remove, hget]

theorem counted_event {L : Ledger} {t : TxLookup} {e : CMEvent} (hget : t.get = L.pooled)
    (he : L.Legal e) (h : t.Counted) : (t.event e).Counted := by
  cases e with
  | lock tx => exact counted_add h (hget ▸ he.2)
  | unlock tx => exact counted_remove h (hget ▸ (show L.pooled tx.hash = some tx from he))
  | forget tx => exact counted_remove h (hget ▸ (show L.pooled tx.hash = some tx from he))
  | store block => exact h

theorem counted_foldl {L : Ledger} {t : TxLookup} (es : List CMEvent) (hget : t.get = L.pooled)
    (hlegal : Run.Along Ledger.step Ledger.Legal L es) (h : t.Counted) :
    (es.foldl event t).Counted := by
  induction es generalizing L t with
  | nil => exact h
  | cons e es ih => exact ih (get_event hget e) hlegal.2 (counted_event hget hlegal.1 h)

end TxLookup

namespace TxPool

variable {K : CMEvent → Prop} {pool0 pool pool' : TxPool} {addr : Address} {list : TxList}

theorem counted_of_books (h : pool.all.Counted) (hr : Reaches K pool [] pool')
    (hb : ∃ es : List CMEvent, pool'.events = es ++ pool.events ∧
      pool'.all = es.foldr (fun e t => t.event e) pool.all) : pool'.all.Counted := by
  obtain ⟨es, hev, hall⟩ := hb
  obtain ⟨es', -, hev', hal, -⟩ := hr.history
  have hes : es = es'.reverse := append_cancel_right (hev.symm.trans hev')
  rw [hall, hes, foldr_reverse]
  exact TxLookup.counted_foldl es' rfl hal h

/-! ## No empty list is pending -/

def Filled (pool : TxPool) : Prop :=
  ∀ addr list, pool.pending.lookup addr = some list → list.isEmpty = false

theorem Filled.frame (h : Filled pool) (hp : pool'.pending = pool.pending) : Filled pool' := by
  intro addr list hl
  exact h addr list (hp ▸ hl)

omit [HashFns] in
theorem isEmpty_insert (list : TxList) (tx : Transaction) : (list.insert tx).isEmpty = false := by
  have hget : (list.insert tx).get tx.accountNonce = some tx := by
    rw [TxList.get_insert, Function.update_self]
  have hmem := (TxSortedMap.get_eq_some_iff.mp hget).1
  simpa [TxList.isEmpty, TxList.len, TxSortedMap.len] using ne_nil_of_mem hmem

theorem Filled.setPending (h : Filled pool) (addr : Address) (hl : list.isEmpty = false) :
    Filled (pool.setPending addr list) := by
  intro a l hla
  by_cases ha : a = addr
  · subst ha
    have heq : list = l := by simpa [TxPool.setPending] using hla
    exact heq ▸ hl
  · exact h a l (by simpa [TxPool.setPending, ha] using hla)

theorem filled_deletePendingIfEmpty
    (h : ∀ a l, a ≠ addr → pool.pending.lookup a = some l → l.isEmpty = false)
    (hl : pool.pending.lookup addr = some list) :
    Filled (pool.deletePendingIfEmpty addr list) := by
  unfold deletePendingIfEmpty
  split
  case isTrue =>
    intro a l hla
    by_cases ha : a = addr
    · subst ha
      simp at hla
    · exact h a l ha (by simpa [ha] using hla)
  case isFalse he =>
    intro a l hla
    by_cases ha : a = addr
    · subst ha
      have heq : list = l := Option.some.inj (hl.symm.trans hla)
      exact heq ▸ Bool.eq_false_iff.mpr he
    · exact h a l ha hla

theorem pending_lockNew (pool : TxPool) (hash : Hash) (tx : Transaction) :
    (pool.lockNew hash tx).pending = pool.pending := by
  unfold lockNew
  split <;> rfl

theorem Filled.promoteTx (h : Filled pool) (addr : Address) (hash : Hash) (tx : Transaction)
    (now : Nat) : Filled (pool.promoteTx addr hash tx now).1 := by
  unfold TxPool.promoteTx
  dsimp only
  split
  · exact h.frame rfl
  · next old list' ha =>
    obtain ⟨-, rfl⟩ := TxList.add_eq_some ha
    have hset := h.setPending addr
      (isEmpty_insert ((pool.pending.lookup addr).getD (newTxList true)) tx)
    exact hset.frame ((pending_lockNew _ hash tx).trans (pending_dropOld _ old))

theorem Filled.promoteAll (h : Filled pool) (addr : Address) (now : Nat) (txs : List Transaction) :
    Filled (pool.promoteAll addr now txs).1 := by
  induction txs generalizing pool with
  | nil => exact h
  | cons t txs ih => exact ih (h.promoteTx addr t.hash t now)

theorem pending_deleteQueueIfEmpty (pool : TxPool) (addr : Address) (list : TxList) :
    (pool.deleteQueueIfEmpty addr list).pending = pool.pending := by
  unfold deleteQueueIfEmpty
  split <;> rfl

theorem Filled.promoteAccount (h : Filled pool) (addr : Address) (now : Nat) :
    Filled (pool.promoteAccount addr now).1 :=
  promoteAccount_induction h (fun _ _ _ _ h _ _ => h.frame (pending_unlockAll _ _))
    (fun pool _ list' _ h _ _ =>
      Filled.promoteAll (h.frame rfl : Filled (pool.setQueue addr list')) addr now _)
    fun _ _ _ h _ => h.frame (pending_deleteQueueIfEmpty _ _ _)

theorem Filled.promoteExecutables (h : Filled pool) (now : Address → Nat)
    (accounts : List Address) : Filled (pool.promoteExecutables now accounts).1 :=
  promoteExecutables_induction (fun _ addr time h => h.promoteAccount addr time) now accounts h

/-- The pending lists of all accounts but one. -/
def SameElsewhere (addr : Address) (pool pool' : TxPool) : Prop :=
  ∀ a, a ≠ addr → pool'.pending.lookup a = pool.pending.lookup a

theorem sameElsewhere_setPending (pool : TxPool) (addr : Address) (list : TxList) :
    SameElsewhere addr pool (pool.setPending addr list) := by
  intro a ha
  simp [TxPool.setPending, ha]

theorem SameElsewhere.trans {pool'' : TxPool} (h : SameElsewhere addr pool pool')
    (h' : SameElsewhere addr pool' pool'') : SameElsewhere addr pool pool'' :=
  fun a ha => (h' a ha).trans (h a ha)

theorem SameElsewhere.of_pending (h : pool'.pending = pool.pending) :
    SameElsewhere addr pool pool' :=
  fun a _ => congrArg (AList.lookup a) h

theorem Filled.deletePendingIfEmpty (h : Filled pool) (hs : SameElsewhere addr pool pool')
    (hl : pool'.pending.lookup addr = some list) :
    Filled (pool'.deletePendingIfEmpty addr list) :=
  filled_deletePendingIfEmpty (fun a l ha hla => h a l ((hs a ha).symm.trans hla)) hl

theorem postponeGapped_spec (h : pool.pending.lookup addr = some list) (nonce : UInt64) :
    SameElsewhere addr pool (pool.postponeGapped addr list nonce).1 ∧
      (pool.postponeGapped addr list nonce).1.pending.lookup addr =
        some (pool.postponeGapped addr list nonce).2 := by
  unfold postponeGapped
  split
  · refine ⟨?_, by simp⟩
    exact (sameElsewhere_setPending pool addr _).trans (.of_pending (pending_enqueueAll _ _))
  · exact ⟨.of_pending rfl, h⟩

theorem Filled.demoteAccount (h : Filled pool) (addr : Address) :
    Filled (pool.demoteAccount addr) := by
  unfold TxPool.demoteAccount
  cases hl : pool.pending.lookup addr with
  | none => exact h
  | some list =>
    dsimp only
    generalize list.forward (pool.currentState.nonce addr) = f
    obtain ⟨olds, list1⟩ := f
    dsimp only
    have hs1 : SameElsewhere addr pool ((pool.setPending addr list1).forgetAll olds) :=
      (sameElsewhere_setPending pool addr list1).trans (.of_pending (pending_forgetAll _ _))
    generalize (pool.setPending addr list1).forgetAll olds = pool1 at hs1 ⊢
    generalize list1.filter (pool1.currentState.balance addr) pool1.currentMaxGas = d
    obtain ⟨drops, invalids, list2⟩ := d
    dsimp only
    have hs2 : SameElsewhere addr pool1 ((((pool1.setPending addr list2).unlockAll
        drops).pricedRemoved (olds.length + drops.length)).enqueueAll invalids) := by
      refine (sameElsewhere_setPending pool1 addr list2).trans (.of_pending ?_)
      exact (pending_enqueueAll _ _).trans (pending_unlockAll _ _)
    have hl2 : ((((pool1.setPending addr list2).unlockAll
        drops).pricedRemoved (olds.length + drops.length)).enqueueAll
          invalids).pending.lookup addr = some list2 := by
      simp [TxPool.pricedRemoved]
    obtain ⟨hs3, hl3⟩ := postponeGapped_spec hl2 (pool.currentState.nonce addr)
    exact h.deletePendingIfEmpty ((hs1.trans hs2).trans hs3) hl3

theorem Filled.demoteUnexecutables (h : Filled pool) (order : List Address) :
    Filled (pool.demoteUnexecutables order) :=
  demoteUnexecutables_induction (fun _ addr h => h.demoteAccount addr) order h

theorem pending_removeQueued (pool : TxPool) (addr : Address) (tx : Transaction) :
    (pool.removeQueued addr tx).pending = pool.pending := by
  unfold removeQueued
  split
  · rfl
  · exact pending_deleteQueueIfEmpty _ _ _

section

variable (h : Filled pool)
include h

theorem Filled.removeListed (addr : Address) (tx : Transaction) :
    Filled (pool.removeListed addr tx) := by
  unfold TxPool.removeListed
  split
  · exact h.frame (pending_removeQueued pool addr tx)
  · next invalids list' _ =>
    refine Filled.frame (h.deletePendingIfEmpty (sameElsewhere_setPending pool addr list')
      (lookup_setPending pool addr list')) ?_
    exact pending_enqueueAll _ _

theorem Filled.removeTx (hash : Hash) (outofbound : Bool) :
    Filled (pool.removeTx hash outofbound) := by
  cases hget : pool.all.get hash with
  | none => rwa [removeTx_of_none hget]
  | some tx =>
    obtain ⟨priced, heq⟩ := removeTx_eq hget outofbound
    have hunlock : Filled ({ pool with priced }.unlockTx tx) := h.frame rfl
    rw [heq]
    exact hunlock.removeListed _ tx

theorem Filled.removeAll (txs : List Transaction) (outofbound : Bool) :
    Filled (txs.foldl (fun pool tx => pool.removeTx tx.hash outofbound) pool) :=
  removeAll_induction (fun _ hash h => h.removeTx hash outofbound) txs h

theorem Filled.truncateQueue (order : List Address) : Filled (pool.truncateQueue order) :=
  truncateQueue_induction (fun _ hash h => h.removeTx hash true) order h

/-! ## Admission -/

theorem Filled.makeRoom (tx : Transaction) (isLocal : Bool) : Filled (pool.makeRoom tx isLocal).1 :=
  makeRoom_induction (fun _ _ h => h.frame rfl) (fun _ hash h => h.removeTx hash false) tx isLocal h

theorem Filled.insertTx (tx : Transaction) (isLocal : Bool) :
    Filled (pool.insertTx tx isLocal).1 := by
  refine insertTx_induction (fun _ _ _ h => h.frame rfl) h (fun list old list' _ _ ha => ?_)
    (fun _ => h.frame (pending_enqueueTx pool tx.hash tx)) isLocal
  obtain ⟨-, rfl⟩ := TxList.add_eq_some ha
  have hset := h.setPending (pool.sender tx) (isEmpty_insert list tx)
  exact hset.frame (pending_dropOld _ old)

theorem Filled.add (tx : Transaction) (isLocal : Bool) : Filled (pool.add tx isLocal).1 :=
  add_induction h (fun _ => h.makeRoom tx isLocal) fun _ h => h.insertTx tx isLocal

end

/-! ## Truncation of the pending lists -/

omit [HashFns] in
theorem listLen_of_lookup {lists : AList fun _ : Address => TxList}
    (h : lists.lookup addr = some list) : listLen lists addr = list.len := by
  simp [listLen, h]

theorem sameElsewhere_capOne (pool : TxPool) (addr : Address) :
    SameElsewhere addr pool (pool.capOne addr) := by
  unfold capOne
  cases pool.pending.lookup addr with
  | none => exact .of_pending rfl
  | some list =>
    exact (sameElsewhere_setPending pool addr _).trans (.of_pending (pending_unlockAll _ _))

theorem lookup_capOne (h : pool.pending.lookup addr = some list) :
    (pool.capOne addr).pending.lookup addr = some (list.cap (list.len - 1)).2 := by
  unfold capOne
  rw [h]
  dsimp only
  simp [pricedRemoved]

theorem listLen_capOne_self (pool : TxPool) (addr : Address) :
    listLen (pool.capOne addr).pending addr = listLen pool.pending addr - 1 := by
  cases h : pool.pending.lookup addr with
  | none =>
    have heq : pool.capOne addr = pool := by
      unfold capOne
      rw [h]
    rw [heq]
    simp [listLen, h]
  | some list =>
    rw [listLen_of_lookup (lookup_capOne h), listLen_of_lookup h]
    simp [TxList.cap, TxList.len, TxSortedMap.cap, TxSortedMap.keep, TxSortedMap.len]

theorem listLen_of_sameElsewhere (h : SameElsewhere addr pool pool') {a : Address}
    (ha : a ≠ addr) : listLen pool'.pending a = listLen pool.pending a := by
  rw [listLen, h a ha, listLen]

theorem isEmpty_eq_false_of_listLen (h : pool.pending.lookup addr = some list)
    (hpos : 1 ≤ listLen pool.pending addr) : list.isEmpty = false := by
  rw [listLen_of_lookup h] at hpos
  have hne : list.len ≠ 0 := by omega
  simpa [TxList.isEmpty] using hne

theorem Filled.capOne (h : Filled pool) (hlen : 2 ≤ listLen pool.pending addr) :
    Filled (pool.capOne addr) := by
  intro a l hl
  by_cases ha : a = addr
  · subst ha
    apply isEmpty_eq_false_of_listLen hl
    rw [listLen_capOne_self]
    omega
  · exact h a l ((sameElsewhere_capOne pool addr a ha).symm.trans hl)

theorem capRound_spec {offenders : List Address} (hnd : offenders.Nodup) {s : TxPool × UInt64}
    (h : Filled s.1) (hlen : ∀ o ∈ offenders, 2 ≤ listLen s.1.pending o) :
    Filled (capRound offenders s).1 ∧ (∀ o ∈ offenders,
        listLen (capRound offenders s).1.pending o = listLen s.1.pending o - 1) ∧
      ∀ a ∉ offenders, (capRound offenders s).1.pending.lookup a = s.1.pending.lookup a := by
  induction offenders generalizing s with
  | nil => exact ⟨h, by simp, fun _ _ => rfl⟩
  | cons addr offenders ih =>
    obtain ⟨hnot, hnd⟩ := nodup_cons.mp hnd
    have hne : ∀ o ∈ offenders, o ≠ addr := fun o ho heq => hnot (heq ▸ ho)
    have helse := sameElsewhere_capOne s.1 addr
    have hlen' : ∀ o ∈ offenders, 2 ≤ listLen (s.1.capOne addr).pending o := by
      intro o ho
      rw [listLen_of_sameElsewhere helse (hne o ho)]
      exact hlen o (mem_cons_of_mem addr ho)
    obtain ⟨hf, hdec, hrest⟩ := ih hnd (s := (s.1.capOne addr, s.2 - 1))
      (h.capOne (hlen addr mem_cons_self)) hlen'
    refine ⟨hf, fun o ho => ?_, fun a ha => ?_⟩
    · rcases mem_cons.mp ho with rfl | ho
      · have hl : listLen (capRound offenders (s.1.capOne o, s.2 - 1)).1.pending o =
            listLen (s.1.capOne o).pending o := by
          rw [listLen, hrest o hnot, listLen]
        exact hl.trans (listLen_capOne_self s.1 o)
      · exact (hdec o ho).trans (by rw [listLen_of_sameElsewhere helse (hne o ho)])
    · obtain ⟨hane, hamem⟩ := ne_and_not_mem_of_not_mem_cons ha
      exact (hrest a hamem).trans (helse a hane)

/-- The offenders have at least as many transactions as the last of them, which has at least
`threshold`. -/
structure Levelled (offenders : List Address) (last : Address) (threshold : Nat) (pool : TxPool) :
    Prop where
  nodup : offenders.Nodup
  mem : last ∈ offenders
  ahead : ∀ o ∈ offenders, listLen pool.pending last ≤ listLen pool.pending o
  above : threshold ≤ listLen pool.pending last

theorem capRounds_spec {offenders : List Address} {last : Address} {threshold : Nat}
    (hpos : 1 ≤ threshold) (fuel : Nat) {s : TxPool × UInt64} (h : Filled s.1)
    (hl : Levelled offenders last threshold s.1) :
    Filled (capRounds offenders last threshold fuel s).1 ∧
      Levelled offenders last threshold (capRounds offenders last threshold fuel s).1 ∧
      ∀ a ∉ offenders, (capRounds offenders last threshold fuel s).1.pending.lookup a =
        s.1.pending.lookup a := by
  induction fuel generalizing s with
  | zero => exact ⟨h, hl, fun _ _ => rfl⟩
  | succ fuel ih =>
    unfold capRounds
    split
    case isFalse => exact ⟨h, hl, fun _ _ => rfl⟩
    case isTrue hgo =>
      have hover : threshold < listLen s.1.pending last := by
        rw [Bool.and_eq_true, decide_eq_true_eq, decide_eq_true_eq] at hgo
        exact hgo.2
      have hlen : ∀ o ∈ offenders, 2 ≤ listLen s.1.pending o := by
        intro o ho
        have hahead := hl.ahead o ho
        omega
      obtain ⟨hf, hdec, hrest⟩ := capRound_spec hl.nodup h hlen
      have hl' : Levelled offenders last threshold (capRound offenders s).1 := by
        refine ⟨hl.nodup, hl.mem, fun o ho => ?_, ?_⟩
        · have hahead := hl.ahead o ho
          rw [hdec o ho, hdec last hl.mem]
          omega
        · rw [hdec last hl.mem]
          omega
      obtain ⟨hf', hl'', hrest'⟩ := ih hf hl'
      exact ⟨hf', hl'', fun a ha => (hrest' a ha).trans (hrest a ha)⟩

omit [HashFns] in
/-- The account that is popped has the most transactions of all. -/
theorem popSpammer_spec {spammers rest : List (Address × Nat)} {offender : Address}
    (h : popSpammer spammers = some (offender, rest)) :
    ∃ n, spammers.Perm ((offender, n) :: rest) ∧ ∀ r ∈ spammers, r.2 ≤ n := by
  induction spammers generalizing offender rest with
  | nil => cases h
  | cons p spammers ih =>
    obtain ⟨addr, n⟩ := p
    unfold popSpammer at h
    cases hp : popSpammer spammers with
    | none =>
      have hnil : spammers = [] := by
        cases spammers with
        | nil => rfl
        | cons q qs =>
          unfold popSpammer at hp
          split at hp
          · cases hp
          · split at hp <;> cases hp
      rw [hp] at h
      cases h
      subst hnil
      exact ⟨n, List.Perm.refl _, by simp⟩
    | some r =>
      obtain ⟨addr', rest'⟩ := r
      rw [hp] at h
      dsimp only at h
      obtain ⟨m, hperm, hmax⟩ := ih hp
      split at h
      case isTrue hall =>
        cases h
        refine ⟨n, List.Perm.refl _, fun r hr => ?_⟩
        rcases mem_cons.mp hr with rfl | hr
        · exact le_refl _
        · simpa using all_eq_true.mp hall r hr
      case isFalse hall =>
        cases h
        refine ⟨m, ?_, fun r hr => ?_⟩
        · exact (hperm.cons (addr, n)).trans (List.Perm.swap _ _ _)
        · rcases mem_cons.mp hr with rfl | hr
          · -- some other account has more than this one
            by_contra hlt
            apply hall
            rw [all_eq_true]
            intro q hq
            have hq' := hmax q hq
            simp only [decide_eq_true_eq]
            omega
          · exact hmax r hr

/-- The accounts that have not been popped are as they were, and have no more transactions
than the last offender. -/
structure Waiting (least : Nat) (spammers : List (Address × Nat)) (offenders : List Address)
    (pool : TxPool) : Prop where
  len : ∀ r ∈ spammers, listLen pool.pending r.1 = r.2
  enough : ∀ r ∈ spammers, least ≤ r.2
  apart : (spammers.map Prod.fst ++ offenders).Nodup
  behind : ∀ last rest, offenders = last :: rest →
    Levelled offenders last least pool ∧ ∀ r ∈ spammers, r.2 ≤ listLen pool.pending last

theorem Levelled.reverse {offenders : List Address} {last : Address} {threshold : Nat}
    (h : Levelled offenders last threshold pool) :
    Levelled offenders.reverse last threshold pool where
  nodup := nodup_reverse.mpr h.nodup
  mem := mem_reverse.mpr h.mem
  ahead := fun o ho => h.ahead o (mem_reverse.mp ho)
  above := h.above

theorem equalize_spec {least : Nat} (hpos : 1 ≤ least) (rounds fuel : Nat)
    {spammers : List (Address × Nat)} {offenders : List Address} {s : TxPool × UInt64}
    (h : Filled s.1) (hw : Waiting least spammers offenders s.1) :
    Filled (equalize rounds fuel spammers offenders s).2.1 ∧
      ∀ last rest, (equalize rounds fuel spammers offenders s).1 = last :: rest →
        Levelled (last :: rest) last least (equalize rounds fuel spammers offenders s).2.1 := by
  induction fuel generalizing spammers offenders s with
  | zero => exact ⟨h, fun last rest heq => heq ▸ (hw.behind last rest heq).1⟩
  | succ fuel ih =>
    have hstop : Filled s.1 ∧ ∀ last rest, offenders = last :: rest →
        Levelled (last :: rest) last least s.1 :=
      ⟨h, fun last rest heq => heq ▸ (hw.behind last rest heq).1⟩
    unfold equalize
    split
    case isFalse => exact hstop
    case isTrue =>
      cases hp : popSpammer spammers with
      | none => exact hstop
      | some r =>
        obtain ⟨offender, rest⟩ := r
        obtain ⟨n, hperm, hmax⟩ := popSpammer_spec hp
        have hmem : (offender, n) ∈ spammers := hperm.symm.subset mem_cons_self
        have hsub : ∀ r ∈ rest, r ∈ spammers := fun r hr =>
          hperm.symm.subset (mem_cons_of_mem _ hr)
        have hlen : listLen s.1.pending offender = n := hw.len _ hmem
        have hapart : ((offender :: rest.map Prod.fst) ++ offenders).Nodup :=
          ((hperm.map Prod.fst).append_right offenders).nodup_iff.mp hw.apart
        have hapart' : (rest.map Prod.fst ++ offender :: offenders).Nodup :=
          (perm_middle.nodup_iff).mpr hapart
        have hnot : ∀ r ∈ spammers, r.1 ∉ offenders := by
          intro r hr hro
          exact (nodup_append.mp hw.apart).2.2 _ (mem_map_of_mem hr) _ hro rfl
        cases offenders with
        | nil =>
          refine ih h ⟨fun r hr => hw.len r (hsub r hr), fun r hr => hw.enough r (hsub r hr),
            hapart', ?_⟩
          rintro last rest' heq
          cases heq
          refine ⟨⟨List.nodup_singleton _, mem_singleton_self _, by simp, ?_⟩, fun r hr => ?_⟩
          · exact hlen ▸ hw.enough _ hmem
          · exact hlen ▸ hmax r (hsub r hr)
        | cons last offenders =>
          obtain ⟨hlev, hbehind⟩ := hw.behind last offenders rfl
          -- the offenders come down to the new one
          have hlev' : Levelled (last :: offenders).reverse last (listLen s.1.pending offender)
              s.1 := by
            refine Levelled.reverse ⟨hlev.nodup, hlev.mem, hlev.ahead, ?_⟩
            exact hlen ▸ hbehind _ hmem
          have hone : 1 ≤ listLen s.1.pending offender := by
            have hn := hw.enough _ hmem
            rw [hlen]
            exact hpos.trans hn
          obtain ⟨hf, hl, hrest⟩ := capRounds_spec hone rounds h hlev'
          have hkeep : ∀ r ∈ spammers, (capRounds (last :: offenders).reverse last
              (listLen s.1.pending offender) rounds s).1.pending.lookup r.1 =
                s.1.pending.lookup r.1 := by
            intro r hr
            exact hrest r.1 fun hm => hnot r hr (mem_reverse.mp hm)
          have hkeep' : ∀ r ∈ spammers, listLen (capRounds (last :: offenders).reverse last
              (listLen s.1.pending offender) rounds s).1.pending r.1 = r.2 := by
            intro r hr
            rw [listLen, hkeep r hr]
            exact hw.len r hr
          refine ih hf ⟨fun r hr => hkeep' r (hsub r hr), fun r hr => hw.enough r (hsub r hr),
            hapart', ?_⟩
          rintro last' rest' heq
          cases heq
          have hoff := hkeep' _ hmem
          refine ⟨⟨(nodup_append.mp hapart').2.1, mem_cons_self, fun o ho => ?_, ?_⟩,
            fun r hr => ?_⟩
          · rcases mem_cons.mp ho with rfl | ho
            · exact le_refl _
            · rw [hoff, ← hlen]
              exact hl.above.trans (hl.ahead o (mem_reverse.mpr ho))
          · rw [hoff]
            exact hw.enough _ hmem
          · rw [hoff]
            exact hmax r (hsub r hr)

omit [HashFns] in
theorem nodup_visit {keys : List Address} (h : keys.Nodup) (order : List Address) :
    (visit keys order).Nodup := by
  refine nodup_append.mpr ⟨(nodup_dedup order).filter _, h.filter _, ?_⟩
  intro a ha b hb hab
  have ha' : a ∈ order := mem_dedup.mp (mem_filter.mp ha).1
  have hb' : b ∉ order := by simpa using (mem_filter.mp hb).2
  exact hb' (hab ▸ ha')

theorem filled_truncatePending (h : Filled pool) (hslots : 1 ≤ pool.config.accountSlots.toNat)
    (order : List Address) : Filled (pool.truncatePending order) := by
  unfold truncatePending
  dsimp only
  split
  case isTrue => exact h
  case isFalse =>
    generalize hsp : filterMap _ (visit pool.pending.keys order) = spammers
    have hspam : ∀ r ∈ spammers, r.1 ∈ visit pool.pending.keys order ∧
        listLen pool.pending r.1 = r.2 ∧ pool.config.accountSlots.toNat ≤ r.2 := by
      intro r hr
      rw [← hsp, mem_filterMap] at hr
      obtain ⟨a, ha, hra⟩ := hr
      split at hra
      case isTrue hbig =>
        cases hra
        rw [Bool.and_eq_true, decide_eq_true_eq, decide_eq_true_eq] at hbig
        have hlt := UInt64.lt_iff_toNat_lt.mp hbig.2
        have hmod : (UInt64.ofNat (listLen pool.pending a)).toNat ≤ listLen pool.pending a := by
          rw [UInt64.toNat_ofNat']
          exact Nat.mod_le _ _
        exact ⟨ha, rfl, by omega⟩
      case isFalse => cases hra
    have hnd : (spammers.map Prod.fst).Nodup := by
      have hsub : (spammers.map Prod.fst).Sublist (visit pool.pending.keys order) := by
        rw [← hsp]
        induction visit pool.pending.keys order with
        | nil => exact List.Sublist.slnil
        | cons a as ih =>
          rw [filterMap_cons]
          split
          · exact ih.cons a
          · next b hb =>
            split at hb
            · cases hb
              exact ih.cons_cons a
            · cases hb
      exact hsub.nodup (nodup_visit pool.pending.keys_nodup order)
    have hw : Waiting pool.config.accountSlots.toNat spammers [] pool :=
      ⟨fun r hr => (hspam r hr).2.1, fun r hr => (hspam r hr).2.2, by simpa using hnd,
        fun _ _ heq => by cases heq⟩
    obtain ⟨hf, hlev⟩ := equalize_spec hslots (pool.all.count + 1) spammers.length
      (s := (pool, listsCount pool.pending)) h hw
    generalize equalize (pool.all.count + 1) spammers.length spammers []
      (pool, listsCount pool.pending) = r at hf hlev ⊢
    obtain ⟨offenders, s⟩ := r
    cases offenders with
    | nil => exact hf
    | cons last offenders =>
      exact (capRounds_spec hslots _ hf (hlev last offenders rfl).reverse).1

end TxPool

end GethComments
