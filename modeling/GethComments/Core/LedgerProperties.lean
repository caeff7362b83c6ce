import GethComments.Core.CommitmentLedger

/-!
# What runs of the ledger preserve

Four properties of the ledger, each with the condition on events under which a step
preserves it; for the last two the condition is exact. Nothing here mentions how the pool arrives
at its events.

* `SpentStays`: what a written block has spent stays spent, if no fresh record is written
  over a spent one (`NoUnspend`);
* `Backed`: what can be spent was created by a written block, if a purchase that leaves the
  pool has been written (`BackedUnlock`);
* `Mirrors`: lock bits mirror the pooled transactions whose record no block has written since they
  entered, if these leave with `reorgCM`, and no other transaction with the same commitment does
  (`CleanExit`);
* `ConflictFree`: pooled transactions do not collide, if the inputs of pooled transfers stay locked
  or spent (`InputsKept`) and none enters that creates what a pooled transfer creates
  (`FreshOutputs`).
-/

namespace GethComments.Ledger

open RawDB

variable [HashFns] {L : Ledger} {e : CMEvent}

def Stored (L : Ledger) (block : Block) : Prop := CMEvent.store block ∈ L.history

variable {block : Block} {tx u : Transaction} {k : Hash}

theorem stored_step : (L.step e).Stored block ↔ e = .store block ∨ L.Stored block := by
  cases e <;> simp [Stored, step, eq_comm]

/-! ## Spent commitments -/

/-- Whatever the transfers of written blocks have spent is spent. -/
def SpentStays (L : Ledger) : Prop :=
  ∀ block, L.Stored block → ∀ tx ∈ block.transactions, ∀ k, tx.Spends k → Spent L.db k

/-- What a block creates again, of the commitments that are spent or that it spends, it spends
afterwards. -/
def RespectsSpent (db : CMdb) (block : Block) : Prop :=
  ∀ pre tx post, block.transactions = pre ++ tx :: post → ∀ k, tx.Creates k →
    (Spent db k ∨ ∃ t ∈ block.transactions, t.Spends k) → ∃ t ∈ post, t.Spends k

/-- `reorgCM` is not called on a transaction whose commitment is spent, and blocks respect
spent commitments. -/
def NoUnspend (L : Ledger) : CMEvent → Prop
  | .unlock tx => ∀ k, tx.Locks k → ¬Spent L.db k
  | .store block => RespectsSpent L.db block
  | _ => True

theorem spent_writeAllCM {db : CMdb} (hr : RespectsSpent db block)
    (h : Spent db k ∨ ∃ t ∈ block.transactions, t.Spends k) :
    Spent (writeAllCM db block) k :=
  (spent_writeTxs_iff block.transactions db h).mpr
    fun pre tx post heq hc => hr pre tx post heq k hc h

theorem spent_step (he : LegalAnd NoUnspend L e) (h : Spent L.db k) : Spent (L.step e).db k := by
  obtain ⟨hlegal, hno⟩ := he
  cases e with
  | lock tx =>
    obtain ⟨k', hk', -, hn⟩ := exists_locks_of_validateCM hlegal.1
    have hl : ¬tx.Locks k := fun hl => hn (hl.unique hk' ▸ h)
    obtain ⟨r, hr, hs⟩ := h
    exact ⟨r, by rw [← hr]; exact processCM_of_not_locks L.db hl, hs⟩
  | unlock tx =>
    have hl : ¬tx.Locks k := fun hl => hno k hl h
    obtain ⟨r, hr, hs⟩ := h
    exact ⟨r, by rw [← hr]; exact reorgCM_of_not_locks L.db hl, hs⟩
  | forget tx => exact h
  | store block => exact spent_writeAllCM hno (Or.inl h)

theorem spentStays_step (h : L.SpentStays) (he : LegalAnd NoUnspend L e) :
    (L.step e).SpentStays := by
  intro block hb tx htx k hk
  rcases stored_step.mp hb with rfl | hb
  · exact spent_writeAllCM he.2 (Or.inr ⟨tx, htx, hk⟩)
  · exact spent_step he (h block hb tx htx k hk)

section

variable (h : L.SpentStays) (hb : L.Stored block) (htx : tx ∈ block.transactions) (h0 : tx.id = 0)
include h hb htx h0

theorem SpentStays.not_validateCM (hu : u.id = 0) (heq : u.cmO = tx.cmO) :
    validateCM L.db u ≠ none := by
  intro hv
  obtain ⟨⟨cm, hcm⟩, -, -⟩ := (validateCM_transfer_eq_none hu).mp hv
  obtain ⟨r, hr, hs⟩ := h block hb tx htx (cmHash tx.cmO) ⟨h0, rfl⟩
  rw [heq, hr] at hcm
  cases hcm
  cases hs

theorem SpentStays.lock_not_mem (hu : u.id = 0) (heq : u.cmO = tx.cmO)
    {es : List CMEvent} (hes : Run.Along step (LegalAnd NoUnspend) L es) : CMEvent.lock u ∉ es := by
  intro hmem
  have hall := Run.along_invariant (P := fun L => L.SpentStays ∧ L.Stored block)
    (fun _ _ hP he => ⟨spentStays_step hP.1 he, stored_step.mpr (Or.inr hP.2)⟩) es L ⟨h, hb⟩ hes
  obtain ⟨L', ⟨hspent, hstored⟩, hlegal, -⟩ := Run.exists_of_along hall hmem
  exact hspent.not_validateCM hstored htx h0 hu heq hlegal.1

end

/-! ## Created commitments -/

def Created (L : Ledger) (k : Hash) : Prop :=
  ∃ block, L.Stored block ∧ ∃ tx ∈ block.transactions, tx.Creates k

theorem Created.step (h : L.Created k) : (L.step e).Created k := by
  obtain ⟨block, hb, hc⟩ := h
  exact ⟨block, stored_step.mpr (Or.inr hb), hc⟩

/-- Records that are neither spent nor locked, and the inputs of pooled transfers, were created
by written blocks. -/
structure Backed (L : Ledger) : Prop where
  available : ∀ k r, L.db k = some r → r.spent = false → r.lock = false → L.Created k
  pooled : ∀ tx, L.Has tx → tx.id = 0 → L.Created (cmHash tx.cmO)

/-- `reorgCM` is only called on purchases that a written block has created. -/
def BackedUnlock (L : Ledger) : CMEvent → Prop
  | .unlock tx => tx.id = 1 → L.Created (cmHash tx.cmV)
  | _ => True

theorem Backed.of_validateCM (h : L.Backed) (h0 : tx.id = 0)
    (hv : validateCM L.db tx = none) : L.Created (cmHash tx.cmO) := by
  obtain ⟨⟨cm, hcm⟩, -, -⟩ := (validateCM_transfer_eq_none h0).mp hv
  exact h.available _ _ hcm rfl rfl

theorem Backed.created_of_unlock (h : L.Backed) (htx : L.Has tx)
    (hb : BackedUnlock L (.unlock tx)) (hk : tx.Locks k) : L.Created k := by
  rcases (tx.locks_iff k).mp hk with ⟨h1, rfl⟩ | ⟨h0, rfl⟩
  · exact hb h1
  · exact h.pooled tx htx h0

theorem available_step (h : L.Backed) (he : LegalAnd BackedUnlock L e) (k : Hash) (r : CM)
    (hr : (L.step e).db k = some r) (hs : r.spent = false) (hl : r.lock = false) :
    (L.step e).Created k := by
  obtain ⟨hlegal, hb⟩ := he
  cases e with
  | lock tx =>
    by_cases hk : tx.Locks k
    · obtain ⟨cm, hcm⟩ := processCM_of_locks L.db hk
      have hr' : processCM L.db tx k = some r := hr
      rw [hcm] at hr'
      cases hr'
      cases hl
    · have hr' : processCM L.db tx k = some r := hr
      rw [processCM_of_not_locks L.db hk] at hr'
      exact (h.available k r hr' hs hl).step
  | unlock tx =>
    by_cases hk : tx.Locks k
    · exact (h.created_of_unlock hlegal hb hk).step
    · have hr' : reorgCM L.db tx k = some r := hr
      rw [reorgCM_of_not_locks L.db hk] at hr'
      exact (h.available k r hr' hs hl).step
  | forget tx => exact (h.available k r hr hs hl).step
  | store block =>
    have hr' : writeTxs L.db block.transactions k = some r := hr
    rcases writeTxs_cases block.transactions L.db k with ⟨-, heq⟩ | ⟨-, r', hw, -, hc⟩
    · rw [heq] at hr'
      exact (h.available k r hr' hs hl).step
    · rw [hw] at hr'
      cases hr'
      exact ⟨block, stored_step.mpr (Or.inl rfl), hc hs⟩

theorem backed_step (h : L.Backed) (he : LegalAnd BackedUnlock L e) : (L.step e).Backed := by
  refine ⟨available_step h he, fun u hu h0 => ?_⟩
  obtain ⟨hlegal, -⟩ := he
  rcases has_step hlegal hu with rfl | hu
  · exact (h.of_validateCM h0 hlegal.1).step
  · exact (h.pooled u hu h0).step

/-! ## Lock bits -/

/-- The block writes the record of the commitment that the transaction locks. -/
def Rewrites (block : Block) (tx : Transaction) : Prop := ∃ k, tx.Locks k ∧ block.Touches k

/-- A block has written the record of the transaction since it last entered the pool. -/
def RewrittenIn (tx : Transaction) : List CMEvent → Prop
  | [] => False
  | .lock u :: es => u ≠ tx ∧ RewrittenIn tx es
  | .store block :: es => Rewrites block tx ∨ RewrittenIn tx es
  | .unlock _ :: es => RewrittenIn tx es
  | .forget _ :: es => RewrittenIn tx es

def Rewritten (L : Ledger) (tx : Transaction) : Prop := RewrittenIn tx L.history

/-- A pooled transaction that locks `k`, and whose record no block has written since it entered
the pool. -/
def Holds (L : Ledger) (tx : Transaction) (k : Hash) : Prop :=
  L.Has tx ∧ tx.Locks k ∧ ¬L.Rewritten tx

def Mirrors (L : Ledger) : Prop := ∀ k, Locked L.db k ↔ ∃ tx, L.Holds tx k

def OneHolder (L : Ledger) : Prop := ∀ k tx u, L.Holds tx k → L.Holds u k → tx = u

/-- `reorgCM` releases no lock of another transaction, and a transaction that leaves without it
holds none. -/
def CleanExit (L : Ledger) : CMEvent → Prop
  | .unlock tx => ∀ k u, tx.Locks k → L.Holds u k → u = tx
  | .forget tx => ∀ k, ¬L.Holds tx k
  | _ => True

section Holds

theorem holds_lock (hn : L.pooled tx.hash = none) :
    (L.step (.lock tx)).Holds u k ↔ u = tx ∧ tx.Locks k ∨ L.Holds u k := by
  have hnot : ¬L.Has tx := by
    intro h
    rw [Has, hn] at h
    cases h
  have hrw : (L.step (.lock tx)).Rewritten u ↔ tx ≠ u ∧ L.Rewritten u := Iff.rfl
  unfold Holds
  rw [has_lock hn, hrw]
  by_cases hu : u = tx
  · subst hu
    simp [hnot]
  · simp [hu, Ne.symm hu]

theorem holds_unlock (h : L.Has tx) : (L.step (.unlock tx)).Holds u k ↔ u ≠ tx ∧ L.Holds u k := by
  have hrw : (L.step (.unlock tx)).Rewritten u ↔ L.Rewritten u := Iff.rfl
  unfold Holds
  rw [has_unlock h, hrw, and_assoc]

theorem holds_forget (h : L.Has tx) : (L.step (.forget tx)).Holds u k ↔ u ≠ tx ∧ L.Holds u k := by
  have hrw : (L.step (.forget tx)).Rewritten u ↔ L.Rewritten u := Iff.rfl
  unfold Holds
  rw [has_forget h, hrw, and_assoc]

theorem holds_store : (L.step (.store block)).Holds u k ↔ ¬block.Touches k ∧ L.Holds u k := by
  have hrw : (L.step (.store block)).Rewritten u ↔ Rewrites block u ∨ L.Rewritten u := Iff.rfl
  unfold Holds
  rw [has_store, hrw, not_or]
  constructor
  · rintro ⟨hu, hk, hnr, hr⟩
    exact ⟨fun ht => hnr ⟨k, hk, ht⟩, hu, hk, hr⟩
  · rintro ⟨ht, hu, hk, hr⟩
    refine ⟨hu, hk, ?_, hr⟩
    rintro ⟨k', hk', ht'⟩
    exact ht (hk.unique hk' ▸ ht')

end Holds

theorem mirrors_unlock_iff (hm : L.Mirrors) (htx : L.Has tx) :
    CleanExit L (.unlock tx) ↔ (L.step (.unlock tx)).Mirrors := by
  have hlocked : ∀ k, tx.Locks k → ¬Locked (L.step (.unlock tx)).db k := fun k hk hl =>
    ((locked_reorgCM hk).mp hl).1 rfl
  constructor
  · intro hclean k
    simp only [holds_unlock htx]
    by_cases hk : tx.Locks k
    · refine iff_of_false (hlocked k hk) ?_
      rintro ⟨u, hne, hu⟩
      exact hne (hclean k u hk hu)
    · have hdb : (L.step (.unlock tx)).db k = L.db k := reorgCM_of_not_locks L.db hk
      rw [Locked, hdb]
      refine (hm k).trans (exists_congr fun u => ?_)
      rw [iff_and_self]
      rintro hu rfl
      exact hk hu.2.1
  · intro h k u hk hu
    by_contra hne
    exact hlocked k hk ((h k).mpr ⟨u, (holds_unlock htx).mpr ⟨hne, hu⟩⟩)

theorem mirrors_forget_iff (hm : L.Mirrors) (hone : L.OneHolder) (htx : L.Has tx) :
    CleanExit L (.forget tx) ↔ (L.step (.forget tx)).Mirrors := by
  constructor
  · intro hclean k
    refine (hm k).trans (exists_congr fun u => ?_)
    rw [holds_forget htx, iff_and_self]
    rintro hu rfl
    exact hclean k hu
  · intro h k hk
    -- the lock is left behind, and nobody else holds it
    have hl : Locked (L.step (.forget tx)).db k := (hm k).mpr ⟨tx, hk⟩
    obtain ⟨u, hu⟩ := (h k).mp hl
    obtain ⟨hne, hu⟩ := (holds_forget htx).mp hu
    exact hne (hone k u tx hu hk)

/-- The lock bits mirror the holders after an event exactly if the event is a clean exit. -/
theorem cleanExit_iff (hm : L.Mirrors) (hone : L.OneHolder) (he : L.Legal e) :
    CleanExit L e ↔ (L.step e).Mirrors := by
  cases e with
  | lock tx =>
    refine iff_of_true trivial fun k => ?_
    obtain ⟨k', hk', -, -⟩ := exists_locks_of_validateCM he.1
    have hl : Locked (L.step (.lock tx)).db k ↔ k = k' ∨ Locked L.db k := locked_processCM hk'
    have hkk : tx.Locks k ↔ k = k' := ⟨fun hk => hk.unique hk', fun hk => hk ▸ hk'⟩
    simp only [hl, holds_lock he.2, hm k, hkk]
    constructor
    · rintro (hk | ⟨u, hu⟩)
      · exact ⟨tx, Or.inl ⟨rfl, hk⟩⟩
      · exact ⟨u, Or.inr hu⟩
    · rintro ⟨u, ⟨-, hk⟩ | hu⟩
      · exact Or.inl hk
      · exact Or.inr ⟨u, hu⟩
  | unlock tx => exact mirrors_unlock_iff hm he
  | forget tx => exact mirrors_forget_iff hm hone he
  | store block =>
    refine iff_of_true trivial fun k => ?_
    have hl : Locked (L.step (.store block)).db k ↔ ¬block.Touches k ∧ Locked L.db k :=
      locked_writeAllCM L.db block k
    simp only [hl, hm k, holds_store, exists_and_left]

theorem oneHolder_step (hm : L.Mirrors) (hone : L.OneHolder) (he : L.Legal e) :
    (L.step e).OneHolder := by
  intro k t u ht hu
  cases e with
  | lock tx =>
    obtain ⟨k', hk', hfree, -⟩ := exists_locks_of_validateCM he.1
    -- nobody holds what the new transaction locks
    have hnone : ∀ v, tx.Locks k → ¬L.Holds v k := fun v hk hv =>
      hfree ((hm k').mpr ⟨v, hk.unique hk' ▸ hv⟩)
    rw [holds_lock he.2] at ht hu
    rcases ht with ⟨rfl, hk⟩ | ht
    · rcases hu with ⟨rfl, -⟩ | hu
      · rfl
      · exact absurd hu (hnone u hk)
    · rcases hu with ⟨rfl, hk⟩ | hu
      · exact absurd ht (hnone t hk)
      · exact hone k t u ht hu
  | unlock tx => exact hone k t u ((holds_unlock he).mp ht).2 ((holds_unlock he).mp hu).2
  | forget tx => exact hone k t u ((holds_forget he).mp ht).2 ((holds_forget he).mp hu).2
  | store block => exact hone k t u (holds_store.mp ht).2 (holds_store.mp hu).2

/-! ## Conflicts -/

/-- The two outputs of a transfer are different commitments. -/
def DistinctOutputs (tx : Transaction) : Prop := tx.id = 0 → cmHash tx.cmS ≠ cmHash tx.cmR

/-- Two transactions neither spend one commitment nor create one. -/
def Apart (tx u : Transaction) : Prop :=
  (∀ k, tx.Spends k → ¬u.Spends k) ∧ ∀ k, tx.Creates k → ¬u.Creates k

theorem Apart.symm (h : Apart tx u) : Apart u tx :=
  ⟨fun k hu ht => h.1 k ht hu, fun k hu ht => h.2 k ht hu⟩

/-- Pooled transactions are apart and have distinct outputs. -/
structure ConflictFree (L : Ledger) : Prop where
  outputs : ∀ tx, L.Has tx → DistinctOutputs tx
  apart : ∀ tx u, L.Has tx → L.Has u → tx ≠ u → Apart tx u

/-- The input of a pooled transfer is locked or spent. -/
def InputsHeld (L : Ledger) : Prop :=
  ∀ tx, L.Has tx → ∀ k, tx.Spends k → Locked L.db k ∨ Spent L.db k

/-- No two pooled transfers spend one commitment, and no two purchases create one. -/
structure InputsApart (L : Ledger) : Prop where
  recorded : L.Recorded
  spends : ∀ tx u, L.Has tx → L.Has u → tx ≠ u → ∀ k, tx.Spends k → ¬u.Spends k
  buys : ∀ tx u, L.Has tx → L.Has u → tx ≠ u → tx.id = 1 → u.id = 1 →
    ∀ k, tx.Creates k → ¬u.Creates k

/-- `reorgCM` is not called on a purchase of what a pooled transfer spends; and what a pooled
transfer spends, a block that creates it spends afterwards. -/
def InputsKept (L : Ledger) : CMEvent → Prop
  | .unlock tx => tx.id = 1 → ∀ u, L.Has u → ¬u.Spends (cmHash tx.cmV)
  | .store block =>
    ∀ u, L.Has u → ∀ k, u.Spends k → ∀ pre tx post, block.transactions = pre ++ tx :: post →
      tx.Creates k → ∃ t ∈ post, t.Spends k
  | _ => True

/-- A transaction that enters has distinct outputs, and creates nothing that a pooled transfer
creates. -/
def FreshOutputs (L : Ledger) : CMEvent → Prop
  | .lock tx => DistinctOutputs tx ∧ ∀ u, L.Has u → u.id = 0 → ∀ k, tx.Creates k → ¬u.Creates k
  | _ => True

section Conflicts

theorem db_eq_none_of_creates (hv : validateCM L.db tx = none) (hk : tx.Creates k) :
    L.db k = none := by
  rcases hk with ⟨h1, rfl⟩ | ⟨h0, hk⟩
  · exact (validateCM_purchase_eq_none h1).mp hv
  · obtain ⟨-, hS, hR⟩ := (validateCM_transfer_eq_none h0).mp hv
    rcases hk with rfl | rfl
    · exact hS
    · exact hR

theorem not_spends_of_validateCM (hheld : L.InputsHeld) (hv : validateCM L.db tx = none)
    (hu : L.Has u) (ht : tx.Spends k) : ¬u.Spends k := by
  intro hus
  obtain ⟨k', hk', hnl, hns⟩ := exists_locks_of_validateCM hv
  have hlocks : tx.Locks k := (tx.locks_iff k).mpr (Or.inr ht)
  rw [← hlocks.unique hk'] at hnl hns
  exact (hheld u hu k hus).elim hnl hns

theorem not_creates_of_validateCM (hrec : L.Recorded) (hv : validateCM L.db tx = none)
    (hu : L.Has u) (h1 : u.id = 1) (ht : tx.Creates k) : ¬u.Creates k := by
  intro huc
  have hkV : cmHash u.cmV = k := by
    rcases huc with ⟨-, hk⟩ | ⟨h0, -⟩
    · exact hk
    · rw [h1] at h0
      cases h0
  have hsome := hrec.isSome hu ((u.locks_iff k).mpr (Or.inl ⟨h1, hkV⟩))
  rw [db_eq_none_of_creates hv ht] at hsome
  cases hsome

end Conflicts

theorem pairs_step {P : Transaction → Transaction → Prop} (hsymm : ∀ tx u, P tx u → P u tx)
    (he : L.Legal e) (hold : ∀ tx u, L.Has tx → L.Has u → tx ≠ u → P tx u)
    (hnew : ∀ tx u, e = .lock tx → L.Has u → P tx u) (tx u : Transaction)
    (htx : (L.step e).Has tx) (hu : (L.step e).Has u) (hne : tx ≠ u) : P tx u := by
  rcases has_step he htx with rfl | htx'
  · refine hnew tx u rfl ((has_step he hu).resolve_left fun heq => ?_)
    exact hne (CMEvent.lock.inj heq)
  · rcases has_step he hu with rfl | hu'
    · exact hsymm u tx (hnew u tx rfl htx')
    · exact hold tx u htx' hu' hne

theorem inputsApart_step (hheld : L.InputsHeld) (h : L.InputsApart) (he : L.Legal e) :
    (L.step e).InputsApart where
  recorded := recorded_step h.recorded he
  spends := by
    refine pairs_step (fun tx u hP k hu ht => hP k ht hu) he h.spends ?_
    rintro tx u rfl hu k ht
    exact not_spends_of_validateCM hheld he.1 hu ht
  buys := by
    refine pairs_step (fun tx u hP h1 h1' k hu ht => hP h1' h1 k ht hu) he h.buys ?_
    rintro tx u rfl hu - h1 k ht
    exact not_creates_of_validateCM h.recorded he.1 hu h1 ht

theorem conflictFree_lock_iff (h : L.ConflictFree) (hheld : L.InputsHeld) (hap : L.InputsApart)
    (he : L.Legal (.lock tx)) :
    FreshOutputs L (.lock tx) ↔ (L.step (.lock tx)).ConflictFree := by
  constructor
  · rintro ⟨hdistinct, hfresh⟩
    refine ⟨fun t ht => ?_, pairs_step (fun _ _ => Apart.symm) he h.apart ?_⟩
    · rcases (has_lock he.2).mp ht with rfl | ht
      · exact hdistinct
      · exact h.outputs t ht
    · intro t u heq hu
      obtain rfl := CMEvent.lock.inj heq
      refine ⟨fun k ht => not_spends_of_validateCM hheld he.1 hu ht, fun k ht huc => ?_⟩
      rcases huc.imp And.left And.left with h1 | h0
      · exact not_creates_of_validateCM hap.recorded he.1 hu h1 ht huc
      · exact hfresh u hu h0 k ht huc
  · intro hfree
    have hself : (L.step (.lock tx)).Has tx := (has_lock he.2).mpr (Or.inl rfl)
    refine ⟨hfree.outputs tx hself, fun u hu _ => ?_⟩
    have hne : tx ≠ u := by
      rintro rfl
      rw [Has, he.2] at hu
      cases hu
    exact (hfree.apart tx u hself ((has_lock he.2).mpr (Or.inr hu)) hne).2

/-- The pool is free of conflicts after an event exactly if the outputs of what enters are fresh. -/
theorem freshOutputs_iff (h : L.ConflictFree) (hheld : L.InputsHeld) (hap : L.InputsApart)
    (he : L.Legal e) : FreshOutputs L e ↔ (L.step e).ConflictFree := by
  cases e with
  | lock tx => exact conflictFree_lock_iff h hheld hap he
  | unlock tx | forget tx | store block =>
    refine iff_of_true trivial ⟨fun t ht => ?_, pairs_step (fun _ _ => Apart.symm) he h.apart ?_⟩
    · exact h.outputs t ((has_step he ht).resolve_left (by simp))
    · rintro t u heq
      cases heq

/-- What a block leaves of the input of a pooled transfer. -/
theorem held_store {db : CMdb} (hk : Locked db k ∨ Spent db k)
    (hb : ∀ pre tx post, block.transactions = pre ++ tx :: post → tx.Creates k →
      ∃ t ∈ post, t.Spends k) :
    Locked (writeAllCM db block) k ∨ Spent (writeAllCM db block) k := by
  by_cases ht : ∃ t ∈ block.transactions, t.Spends k
  · exact Or.inr ((spent_writeTxs_iff block.transactions db (Or.inr ht)).mpr hb)
  · have hnot : ¬block.Touches k := by
      rintro ⟨t, hm, hs | hc⟩
      · exact ht ⟨t, hm, hs⟩
      · obtain ⟨pre, post, heq⟩ := List.append_of_mem hm
        obtain ⟨t', hm', hs'⟩ := hb pre t post heq hc
        refine ht ⟨t', ?_, hs'⟩
        rw [heq]
        exact List.mem_append_right _ (List.mem_cons_of_mem _ hm')
    rcases hk with hl | hs
    · exact Or.inl ((locked_writeAllCM db block k).mpr ⟨hnot, hl⟩)
    · refine Or.inr ((spent_writeTxs_iff block.transactions db (Or.inl hs)).mpr hb)

theorem held_store_iff {db : CMdb} (hk : Locked db k ∨ Spent db k) :
    (∀ pre tx post, block.transactions = pre ++ tx :: post → tx.Creates k →
      ∃ t ∈ post, t.Spends k) ↔
    Locked (writeAllCM db block) k ∨ Spent (writeAllCM db block) k := by
  refine ⟨held_store hk, ?_⟩
  rintro (hl | hs) pre tx post heq hc
  · have hm : tx ∈ block.transactions := by simp [heq]
    exact absurd ⟨tx, hm, Or.inr hc⟩ ((locked_writeAllCM db block k).mp hl).1
  · have hor : Spent db k ∨ ∃ t ∈ block.transactions, t.Spends k := by
      by_cases hdb : Spent db k
      · exact Or.inl hdb
      · exact Or.inr (spends_of_spent_writeTxs _ _ hdb hs)
    exact (spent_writeTxs_iff _ db hor).mp hs pre tx post heq hc

theorem inputsHeld_unlock_iff (hheld : L.InputsHeld) (hap : L.InputsApart) (htx : L.Has tx) :
    InputsKept L (.unlock tx) ↔ (L.step (.unlock tx)).InputsHeld := by
  constructor
  · intro hkept u hu k hk
    obtain ⟨hne, hu⟩ := (has_unlock htx).mp hu
    have htk : ¬tx.Locks k := by
      intro htk
      rcases (tx.locks_iff k).mp htk with ⟨h1, rfl⟩ | hs
      · exact hkept h1 u hu hk
      · exact hap.spends u tx hu htx hne k hk hs
    have hdb : (L.step (.unlock tx)).db k = L.db k := reorgCM_of_not_locks L.db htk
    rw [Locked, Spent, hdb]
    exact hheld u hu k hk
  · intro h h1 u hu hk
    have hne : u ≠ tx := by
      rintro rfl
      have h0 := hk.1
      rw [h1] at h0
      cases h0
    -- the fresh record is neither locked nor spent
    have hlocks : tx.Locks (cmHash tx.cmV) := (tx.locks_iff _).mpr (Or.inl ⟨h1, rfl⟩)
    obtain ⟨cm, hcm⟩ := reorgCM_of_locks L.db hlocks
    rcases h u ((has_unlock htx).mpr ⟨hne, hu⟩) _ hk with ⟨r, hr, hl⟩ | ⟨r, hr, hs⟩
    · cases hcm.symm.trans hr
      cases hl
    · cases hcm.symm.trans hr
      cases hs

/-- The inputs of pooled transfers are locked or spent after an event exactly if it keeps them. -/
theorem inputsKept_iff (hheld : L.InputsHeld) (hap : L.InputsApart) (he : L.Legal e) :
    InputsKept L e ↔ (L.step e).InputsHeld := by
  cases e with
  | lock tx =>
    refine iff_of_true trivial fun u hu k hk => ?_
    by_cases htk : tx.Locks k
    · exact Or.inl ((locked_processCM htk).mpr (Or.inl rfl))
    · rcases (has_lock he.2).mp hu with rfl | hu
      · exact absurd ((u.locks_iff k).mpr (Or.inr hk)) htk
      · have hdb : (L.step (.lock tx)).db k = L.db k := processCM_of_not_locks L.db htk
        rw [Locked, Spent, hdb]
        exact hheld u hu k hk
  | unlock tx => exact inputsHeld_unlock_iff hheld hap he
  | forget tx => exact iff_of_true trivial fun u hu => hheld u ((has_forget he).mp hu).2
  | store block =>
    constructor
    · intro hkept u hu k hk
      exact (held_store_iff (hheld u hu k hk)).mp (hkept u hu k hk)
    · intro h u hu k hk
      exact (held_store_iff (hheld u hu k hk)).mpr (h u hu k hk)

end GethComments.Ledger
