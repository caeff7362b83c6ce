import GethComments.Core.CommitmentRules
import GethComments.Lib.Run

/-!
# The ledger of pooled commitments

An abstract machine over the commitment database and the set of pooled transactions. Its
events are the four things that the pool and the chain do to them: a transaction enters the
pool and its commitment is locked, it leaves and `reorgCM` writes a fresh record, it leaves
without `reorgCM`, and a block is written. The history of events is kept, latest first.

* `recorded_step`: a pooled transaction has a record under the commitment it locks;
* `locked_processCM`, `locked_reorgCM`, `locked_writeAllCM`: how each event changes lock bits.
-/

namespace GethComments

open RawDB List

open Function

/-! ## Records after a block -/

section Records

variable [HashFns]

/-- Writing the transaction writes the record under `k`. -/
def Transaction.Touches (tx : Transaction) (k : Hash) : Prop := tx.Spends k ∨ tx.Creates k

def Block.Touches (block : Block) (k : Hash) : Prop := ∃ tx ∈ block.transactions, tx.Touches k

/-- A record that a block writes is left unlocked, and unspent only if the block creates it. -/
theorem RawDB.writeTxs_cases (txs : List Transaction) (db : CMdb) (k : Hash) :
    (∀ tx ∈ txs, ¬tx.Touches k) ∧ writeTxs db txs k = db k ∨
      (∃ tx ∈ txs, tx.Touches k) ∧ ∃ r, writeTxs db txs k = some r ∧ r.lock = false ∧
        (r.spent = false → ∃ tx ∈ txs, tx.Creates k) := by
  induction txs generalizing db with
  | nil => exact Or.inl ⟨by simp, rfl⟩
  | cons tx txs ih =>
    rw [writeTxs_cons]
    rcases ih (writeTxCM db tx) with ⟨hnot, heq⟩ | ⟨⟨t, ht, htouch⟩, r, hr, hlock, hspent⟩
    · rw [heq]
      by_cases hc : tx.Creates k
      · obtain ⟨cm, hcm⟩ := writeTxCM_of_creates db hc
        exact Or.inr ⟨⟨tx, mem_cons_self, Or.inr hc⟩, newDefaultCM cm, hcm, rfl,
          fun _ => ⟨tx, mem_cons_self, hc⟩⟩
      · by_cases hs : tx.Spends k
        · exact Or.inr ⟨⟨tx, mem_cons_self, Or.inl hs⟩, newCM tx.cmO true,
            writeTxCM_of_spends db hs hc, rfl, fun h => by cases h⟩
        · exact Or.inl ⟨List.forall_mem_cons.mpr ⟨fun h => h.elim hs hc, hnot⟩,
            writeTxCM_of_not_touched db hs hc⟩
    · refine Or.inr ⟨⟨t, mem_cons_of_mem _ ht, htouch⟩, r, hr, hlock, fun h => ?_⟩
      obtain ⟨u, hu, hcu⟩ := hspent h
      exact ⟨u, mem_cons_of_mem _ hu, hcu⟩

/-- The record under `k` is locked. -/
def Locked (db : CMdb) (k : Hash) : Prop := ∃ r, db k = some r ∧ r.lock = true

variable {db : CMdb} {tx : Transaction} {k k' : Hash}

theorem locked_processCM (h : tx.Locks k) :
    Locked (processCM db tx) k' ↔ k' = k ∨ Locked db k' := by
  by_cases hk : k' = k
  · subst hk
    obtain ⟨cm, hcm⟩ := processCM_of_locks db h
    simp [Locked, hcm]
  · have hn : ¬tx.Locks k' := fun h' => hk (h'.unique h)
    simp [Locked, processCM_of_not_locks db hn, hk]

theorem locked_reorgCM (h : tx.Locks k) : Locked (reorgCM db tx) k' ↔ k' ≠ k ∧ Locked db k' := by
  by_cases hk : k' = k
  · subst hk
    obtain ⟨cm, hcm⟩ := reorgCM_of_locks db h
    simp [Locked, hcm, newDefaultCM]
  · have hn : ¬tx.Locks k' := fun h' => hk (h'.unique h)
    simp [Locked, reorgCM_of_not_locks db hn, hk]

theorem locked_writeAllCM (db : CMdb) (block : Block) (k : Hash) :
    Locked (writeAllCM db block) k ↔ ¬block.Touches k ∧ Locked db k := by
  unfold Locked writeAllCM
  rcases writeTxs_cases block.transactions db k with ⟨hnot, heq⟩ | ⟨ht, r, hr, hlock, -⟩
  · have hb : ¬block.Touches k := fun ⟨t, hm, ht⟩ => hnot t hm ht
    simp [heq, hb]
  · have hb : block.Touches k := ht
    simp [hr, hlock, hb]

theorem isSome_processCM (h : (db k).isSome) : (processCM db tx k).isSome := by
  by_cases hl : tx.Locks k
  · obtain ⟨cm, hcm⟩ := processCM_of_locks db hl
    simp [hcm]
  · rwa [processCM_of_not_locks db hl]

theorem isSome_reorgCM (h : (db k).isSome) : (reorgCM db tx k).isSome := by
  by_cases hl : tx.Locks k
  · obtain ⟨cm, hcm⟩ := reorgCM_of_locks db hl
    simp [hcm]
  · rwa [reorgCM_of_not_locks db hl]

theorem isSome_writeAllCM (block : Block) (h : (db k).isSome) : (writeAllCM db block k).isSome := by
  unfold writeAllCM
  rcases writeTxs_cases block.transactions db k with ⟨-, heq⟩ | ⟨-, r, hr, -⟩
  · rwa [heq]
  · simp [hr]

theorem exists_locks_of_validateCM (h : validateCM db tx = none) :
    ∃ k, tx.Locks k ∧ ¬Locked db k ∧ ¬Spent db k := by
  rcases id_of_validateCM_eq_none h with h1 | h0
  · have hk := (validateCM_purchase_eq_none h1).mp h
    exact ⟨_, (tx.locks_iff _).mpr (Or.inl ⟨h1, rfl⟩), by simp [Locked, hk], by simp [Spent, hk]⟩
  · obtain ⟨⟨cm, hk⟩, -, -⟩ := (validateCM_transfer_eq_none h0).mp h
    exact ⟨_, (tx.locks_iff _).mpr (Or.inr ⟨h0, rfl⟩), by simp [Locked, hk, newDefaultCM],
      by simp [Spent, hk, newDefaultCM]⟩

end Records

/-! ## The machine -/

inductive CMEvent where
  /-- `processCM` and `pool.all.Add`. -/
  | lock (tx : Transaction)
  /-- `reorgCM` and `pool.all.Remove`. -/
  | unlock (tx : Transaction)
  /-- `pool.all.Remove` alone. -/
  | forget (tx : Transaction)
  /-- `WriteAllCM`. -/
  | store (block : Block)
deriving DecidableEq

structure Ledger where
  db : CMdb
  pooled : Hash → Option Transaction
  history : List CMEvent

namespace Ledger

variable [HashFns]

def step (L : Ledger) : CMEvent → Ledger
  | .lock tx =>
    ⟨processCM L.db tx, update L.pooled tx.hash (some tx), .lock tx :: L.history⟩
  | .unlock tx =>
    ⟨reorgCM L.db tx, update L.pooled tx.hash none, .unlock tx :: L.history⟩
  | .forget tx => ⟨L.db, update L.pooled tx.hash none, .forget tx :: L.history⟩
  | .store block => ⟨RawDB.writeAllCM L.db block, L.pooled, .store block :: L.history⟩

def Has (L : Ledger) (tx : Transaction) : Prop := L.pooled tx.hash = some tx

/-- What the pool establishes before an event. -/
def Legal (L : Ledger) : CMEvent → Prop
  | .lock tx => validateCM L.db tx = none ∧ L.pooled tx.hash = none
  | .unlock tx => L.Has tx
  | .forget tx => L.Has tx
  | .store _ => True

/-- A legal event that also meets the condition `ok`. -/
def LegalAnd (ok : Ledger → CMEvent → Prop) (L : Ledger) (e : CMEvent) : Prop := L.Legal e ∧ ok L e

variable {L : Ledger} {tx u : Transaction}

theorem has_lock (h : L.pooled tx.hash = none) : (L.step (.lock tx)).Has u ↔ u = tx ∨ L.Has u := by
  unfold Has step
  by_cases hu : u.hash = tx.hash
  · have hn : L.pooled u.hash ≠ some u := by rw [hu, h]; simp
    simp only [hu, update_self, Option.some.injEq]
    rw [hu] at hn
    exact ⟨fun e => Or.inl e.symm, fun e => (e.resolve_right hn).symm⟩
  · have hne : u ≠ tx := fun e => hu (e ▸ rfl)
    simp [update_of_ne hu, hne]

theorem has_remove (h : L.Has tx) : update L.pooled tx.hash none u.hash = some u ↔
    u ≠ tx ∧ L.Has u := by
  by_cases hu : u.hash = tx.hash
  · have heq : L.Has u → u = tx := by
      intro hL
      unfold Has at h hL
      rw [hu, h] at hL
      exact (Option.some.inj hL).symm
    simp only [hu, update_self, reduceCtorEq, false_iff, not_and]
    exact fun hne hL => hne (heq hL)
  · have hne : u ≠ tx := fun e => hu (e ▸ rfl)
    simp [update_of_ne hu, hne, Has]

theorem has_unlock (h : L.Has tx) : (L.step (.unlock tx)).Has u ↔ u ≠ tx ∧ L.Has u := has_remove h

theorem has_forget (h : L.Has tx) : (L.step (.forget tx)).Has u ↔ u ≠ tx ∧ L.Has u := has_remove h

theorem has_store {block : Block} : (L.step (.store block)).Has u ↔ L.Has u := Iff.rfl

theorem has_step {e : CMEvent} (he : L.Legal e) (hu : (L.step e).Has u) :
    e = .lock u ∨ L.Has u := by
  cases e with
  | lock tx => exact ((has_lock he.2).mp hu).imp_left fun h => congrArg _ h.symm
  | unlock tx => exact Or.inr ((has_unlock he).mp hu).2
  | forget tx => exact Or.inr ((has_forget he).mp hu).2
  | store block => exact Or.inr hu

/-! ## Pooled transactions are recorded -/

theorem isSome_step {e : CMEvent} {k : Hash} (h : (L.db k).isSome) : ((L.step e).db k).isSome := by
  cases e with
  | lock tx => exact isSome_processCM h
  | unlock tx => exact isSome_reorgCM h
  | forget tx => exact h
  | store block => exact isSome_writeAllCM block h

/-- Every pooled transaction locks a commitment, and that commitment has a record. -/
def Recorded (L : Ledger) : Prop := ∀ tx, L.Has tx → ∃ k, tx.Locks k ∧ (L.db k).isSome

theorem Recorded.isSome (h : L.Recorded) (htx : L.Has tx) {k : Hash} (hk : tx.Locks k) :
    (L.db k).isSome := by
  obtain ⟨k', hk', hsome⟩ := h tx htx
  rwa [hk.unique hk']

theorem recorded_step {e : CMEvent} (h : L.Recorded) (he : L.Legal e) : (L.step e).Recorded := by
  intro u hu
  rcases has_step he hu with rfl | hu
  · obtain ⟨k, hk, -, -⟩ := exists_locks_of_validateCM he.1
    obtain ⟨cm, hcm⟩ := processCM_of_locks L.db hk
    exact ⟨k, hk, by simp [step, hcm]⟩
  · obtain ⟨k, hk, hsome⟩ := h u hu
    exact ⟨k, hk, isSome_step hsome⟩

theorem validateCM_unlock (h : L.Recorded) (htx : L.Has tx) (hu : validateCM L.db u = none) :
    validateCM (L.step (.unlock tx)).db u = none := by
  obtain ⟨k, hk, hsome⟩ := h tx htx
  have hnone : ∀ k', L.db k' = none → reorgCM L.db tx k' = none := by
    intro k' hk'
    have hn : ¬tx.Locks k' := fun hl => by
      rw [hl.unique hk] at hk'
      rw [hk'] at hsome
      cases hsome
    rw [reorgCM_of_not_locks L.db hn, hk']
  rcases id_of_validateCM_eq_none hu with h1 | h0
  · rw [validateCM_purchase_eq_none h1] at hu ⊢
    exact hnone _ hu
  · rw [validateCM_transfer_eq_none h0] at hu ⊢
    obtain ⟨⟨cm, hO⟩, hS, hR⟩ := hu
    refine ⟨?_, hnone _ hS, hnone _ hR⟩
    by_cases hl : tx.Locks (cmHash u.cmO)
    · exact reorgCM_of_locks L.db hl
    · exact ⟨cm, by rw [← hO]; exact reorgCM_of_not_locks L.db hl⟩

/-! ## Legal runs of events -/

/-- Legal events of the kind `K` lead from one ledger to the other. -/
def Evolves (K : CMEvent → Prop) (L L' : Ledger) : Prop :=
  ∃ es : List CMEvent, (∀ e ∈ es, K e) ∧ Run.Along step Legal L es ∧ es.foldl step L = L'

theorem Evolves.refl (K : CMEvent → Prop) (L : Ledger) : Evolves K L L :=
  ⟨[], by simp, trivial, rfl⟩

variable {K : CMEvent → Prop} {L' : Ledger}

theorem Evolves.step {L : Ledger} {e : CMEvent} (h : Evolves K L L') (hK : K e) (he : L'.Legal e) :
    Evolves K L (L'.step e) := by
  obtain ⟨es, hes, hal, rfl⟩ := h
  refine ⟨es ++ [e], ?_, (Run.along_snoc L es e).mpr ⟨hal, he⟩, by simp⟩
  exact forall_mem_append.mpr ⟨hes, forall_mem_singleton.mpr hK⟩

theorem Evolves.trans {L L'' : Ledger} (h : Evolves K L L') (h' : Evolves K L' L'') :
    Evolves K L L'' := by
  obtain ⟨es, hes, hal, rfl⟩ := h
  obtain ⟨es', hes', hal', rfl⟩ := h'
  exact ⟨es ++ es', forall_mem_append.mpr ⟨hes, hes'⟩,
    (Run.along_append L es es').mpr ⟨hal, hal'⟩, foldl_append⟩

theorem Evolves.mono {K' : CMEvent → Prop} (hK : ∀ e, K e → K' e) {L : Ledger}
    (h : Evolves K L L') : Evolves K' L L' := by
  obtain ⟨es, hes, hal, heq⟩ := h
  exact ⟨es, fun e he => hK e (hes e he), hal, heq⟩

theorem Evolves.isSome {k : Hash} (h : Evolves K L L') (hk : (L.db k).isSome) :
    (L'.db k).isSome := by
  obtain ⟨es, -, hal, rfl⟩ := h
  exact Run.invariant (P := fun L => (L.db k).isSome) (fun L e hL _ => isSome_step hL) es _ hk hal

theorem history_foldl (es : List CMEvent) (L : Ledger) :
    (es.foldl step L).history = es.reverse ++ L.history := by
  induction es generalizing L with
  | nil => rfl
  | cons e es ih =>
    rw [foldl_cons, ih]
    cases e <;> simp [step]

/-- Transactions only leave, and with `reorgCM`. -/
def IsUnlock : CMEvent → Prop
  | .unlock _ => True
  | _ => False

theorem legal_lock_unlock (hrec : L.Recorded) (htx : L.Has tx) (hu : L.Legal (.lock u)) :
    (L.step (.unlock tx)).Legal (.lock u) := by
  refine ⟨validateCM_unlock hrec htx hu.1, ?_⟩
  show update L.pooled tx.hash none u.hash = none
  by_cases h : u.hash = tx.hash
  · rw [h, update_self]
  · rw [update_of_ne h]
    exact hu.2

theorem Evolves.legal_lock (h : Evolves IsUnlock L L') (hrec : L.Recorded)
    (hu : L.Legal (.lock u)) : L'.Legal (.lock u) := by
  obtain ⟨es, hes, hal, rfl⟩ := h
  induction es generalizing L with
  | nil => exact hu
  | cons e es ih =>
    obtain ⟨hlegal, hal⟩ := hal
    have hes' : ∀ e' ∈ es, IsUnlock e' := fun e' he' => hes e' (mem_cons_of_mem _ he')
    cases e with
    | unlock tx => exact ih (recorded_step hrec hlegal) (legal_lock_unlock hrec hlegal hu) hes' hal
    | lock tx => exact (hes _ mem_cons_self).elim
    | forget tx => exact (hes _ mem_cons_self).elim
    | store block => exact (hes _ mem_cons_self).elim

theorem Evolves.has (h : Evolves IsUnlock L L') (hu : L'.Has u) : L.Has u := by
  obtain ⟨es, hes, hal, rfl⟩ := h
  induction es generalizing L with
  | nil => exact hu
  | cons e es ih =>
    have hL := ih (fun e' he' => hes e' (mem_cons_of_mem _ he')) hal.2 hu
    refine (has_step hal.1 hL).resolve_left ?_
    rintro rfl
    exact hes _ mem_cons_self

end Ledger

end GethComments
