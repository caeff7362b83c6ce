import GethComments.Types.Block
import GethComments.Types.Commitment

/-!
# The commitment database

`HasCM`, `WriteCM`, `ReadCM` and `WriteAllCM`. A record is written as RLP and read
back unchanged, so the database is a map from keys to records.

* `spent_writeTxCM`: which records are spent after one transaction is written.
* `spent_writeTxs_of_no_create`, `spends_of_spent_writeTxs`: the same for a whole block, as
  long as nothing is created again.
-/

namespace GethComments

abbrev CMdb := Hash → Option CM

/-! ## What a transaction does to the record of a commitment -/

namespace Transaction

variable [HashFns]

/-- A transfer whose `CmO` is stored under `k`. -/
def Spends (tx : Transaction) (k : Hash) : Prop := tx.id = 0 ∧ cmHash tx.cmO = k

/-- A purchase whose `CmV`, or a transfer whose `CmS` or `CmR`, is stored under `k`. -/
def Creates (tx : Transaction) (k : Hash) : Prop :=
  tx.id = 1 ∧ cmHash tx.cmV = k ∨ tx.id = 0 ∧ (cmHash tx.cmS = k ∨ cmHash tx.cmR = k)

instance (tx : Transaction) (k : Hash) : Decidable (tx.Spends k) :=
  inferInstanceAs (Decidable (_ ∧ _))

instance (tx : Transaction) (k : Hash) : Decidable (tx.Creates k) :=
  inferInstanceAs (Decidable (_ ∨ _))

end Transaction

/-! ## The writer -/

namespace RawDB

def emptyCMdb : CMdb := fun _ => none

def hasCM (db : CMdb) (hash : Hash) : Bool := (db hash).isSome

def writeCM (db : CMdb) (hash : Hash) (cm : CM) : CMdb := Function.update db hash (some cm)

def readCM (db : CMdb) (hash : Hash) : Option CM := db hash

section

variable [HashFns]

/-- The loop body of `WriteAllCM`. -/
def writeTxCM (db : CMdb) (tx : Transaction) : CMdb :=
  if tx.id = 1 then
    -- a purchase
    let cmV := newDefaultCM tx.cmV
    writeCM db cmV.hash cmV
  else if tx.id = 0 then
    -- a transfer
    let cmO := newCM tx.cmO true
    let db := writeCM db cmO.hash cmO
    let cmS := newDefaultCM tx.cmS
    let db := writeCM db cmS.hash cmS
    let cmR := newDefaultCM tx.cmR
    writeCM db cmR.hash cmR
  else db

def writeTxs (db : CMdb) (txs : List Transaction) : CMdb := txs.foldl writeTxCM db

def writeAllCM (db : CMdb) (block : Block) : CMdb := writeTxs db block.transactions

/-! ## Spent records -/

/-- The record under `k` exists and is marked as spent. -/
def Spent (db : CMdb) (k : Hash) : Prop := ∃ r, db k = some r ∧ r.spent = true

instance (db : CMdb) (k : Hash) : Decidable (Spent db k) :=
  match h : db k with
  | none => isFalse (by simp [Spent, h])
  | some r => decidable_of_iff (r.spent = true) (by simp [Spent, h])

variable {tx : Transaction} {k : Hash}

theorem writeTxCM_of_not_touched (db : CMdb) (hs : ¬tx.Spends k) (hc : ¬tx.Creates k) :
    writeTxCM db tx k = db k := by
  unfold Transaction.Spends at hs
  unfold Transaction.Creates at hc
  unfold writeTxCM
  split
  case isTrue h1 =>
    have hV : k ≠ cmHash tx.cmV := by rintro rfl; exact hc (Or.inl ⟨h1, rfl⟩)
    simp [writeCM, hV]
  case isFalse h1 =>
    split
    case isTrue h0 =>
      have hO : k ≠ cmHash tx.cmO := by rintro rfl; exact hs ⟨h0, rfl⟩
      have hS : k ≠ cmHash tx.cmS := by rintro rfl; exact hc (Or.inr ⟨h0, Or.inl rfl⟩)
      have hR : k ≠ cmHash tx.cmR := by rintro rfl; exact hc (Or.inr ⟨h0, Or.inr rfl⟩)
      simp [writeCM, hO, hS, hR]
    case isFalse h0 => rfl

/-- A created commitment is left available: a new record that is neither spent nor locked. -/
theorem writeTxCM_of_creates (db : CMdb) (h : tx.Creates k) :
    ∃ cm, writeTxCM db tx k = some (newDefaultCM cm) := by
  rcases h with ⟨h1, rfl⟩ | ⟨h0, hk⟩
  · exact ⟨tx.cmV, by simp [writeTxCM, h1, writeCM]⟩
  · by_cases hR : cmHash tx.cmR = k
    · subst hR
      exact ⟨tx.cmR, by simp [writeTxCM, h0, writeCM]⟩
    · have hS : cmHash tx.cmS = k := hk.resolve_right hR
      subst hS
      exact ⟨tx.cmS, by simp [writeTxCM, h0, writeCM, Ne.symm hR]⟩

theorem writeTxCM_of_spends (db : CMdb) (h : tx.Spends k) (hc : ¬tx.Creates k) :
    writeTxCM db tx k = some (newCM tx.cmO true) := by
  obtain ⟨h0, rfl⟩ := h
  have hS : cmHash tx.cmO ≠ cmHash tx.cmS := fun e => hc (Or.inr ⟨h0, Or.inl e.symm⟩)
  have hR : cmHash tx.cmO ≠ cmHash tx.cmR := fun e => hc (Or.inr ⟨h0, Or.inr e.symm⟩)
  simp [writeTxCM, h0, writeCM, hS, hR]

theorem spent_writeTxCM (db : CMdb) (tx : Transaction) (k : Hash) :
    Spent (writeTxCM db tx) k ↔ ¬tx.Creates k ∧ (tx.Spends k ∨ Spent db k) := by
  by_cases hc : tx.Creates k
  · obtain ⟨cm, h⟩ := writeTxCM_of_creates db hc
    simp [Spent, h, newDefaultCM, hc]
  · by_cases hs : tx.Spends k
    · simp [Spent, writeTxCM_of_spends db hs hc, newCM, hs, hc]
    · simp [Spent, writeTxCM_of_not_touched db hs hc, hs, hc]

/-! ## Whole blocks -/

@[simp] theorem writeTxs_nil (db : CMdb) : writeTxs db [] = db := rfl

@[simp] theorem writeTxs_cons (db : CMdb) (tx : Transaction) (txs : List Transaction) :
    writeTxs db (tx :: txs) = writeTxs (writeTxCM db tx) txs := rfl

theorem writeTxs_append (db : CMdb) (txs txs' : List Transaction) :
    writeTxs db (txs ++ txs') = writeTxs (writeTxs db txs) txs' := List.foldl_append

theorem spent_writeTxs_of_no_create (txs : List Transaction) (hc : ∀ t ∈ txs, ¬t.Creates k)
    (db : CMdb) (h : Spent db k ∨ ∃ t ∈ txs, t.Spends k) :
    Spent (writeTxs db txs) k := by
  induction txs generalizing db with
  | nil => simpa using h
  | cons tx txs ih =>
    simp only [List.mem_cons, forall_eq_or_imp] at hc
    refine ih hc.2 _ ?_
    rw [spent_writeTxCM]
    rcases h with h | ⟨t, ht, hs⟩
    · exact Or.inl ⟨hc.1, Or.inr h⟩
    · rcases List.mem_cons.mp ht with rfl | ht
      · exact Or.inl ⟨hc.1, Or.inl hs⟩
      · exact Or.inr ⟨t, ht, hs⟩

theorem spends_of_spent_writeTxs (txs : List Transaction) (db : CMdb) (hn : ¬Spent db k)
    (h : Spent (writeTxs db txs) k) : ∃ t ∈ txs, t.Spends k := by
  induction txs generalizing db with
  | nil => exact absurd h hn
  | cons tx txs ih =>
    by_cases hs : tx.Spends k
    · exact ⟨tx, List.mem_cons_self, hs⟩
    · have hn' : ¬Spent (writeTxCM db tx) k := by
        rw [spent_writeTxCM]
        rintro ⟨-, h | h⟩
        · exact hs h
        · exact hn h
      obtain ⟨t, ht, hst⟩ := ih _ hn' h
      exact ⟨t, List.mem_cons_of_mem _ ht, hst⟩

theorem exists_last_creates (txs : List Transaction) (h : ∃ t ∈ txs, t.Creates k) :
    ∃ pre tx post, txs = pre ++ tx :: post ∧ tx.Creates k ∧ ∀ t ∈ post, ¬t.Creates k := by
  induction txs with
  | nil => simp at h
  | cons tx txs ih =>
    by_cases hl : ∃ t ∈ txs, t.Creates k
    · obtain ⟨pre, t, post, rfl, ht, hpost⟩ := ih hl
      exact ⟨tx :: pre, t, post, rfl, ht, hpost⟩
    · push Not at hl
      obtain ⟨t, ht, hc⟩ := h
      rcases List.mem_cons.mp ht with rfl | ht
      · exact ⟨[], t, txs, rfl, hc, hl⟩
      · exact absurd hc (hl t ht)

/-- A record that is spent before the block or by one of its transfers stays spent
exactly when each transaction that creates it is followed by one that spends it. -/
theorem spent_writeTxs_iff (txs : List Transaction) (db : CMdb)
    (h : Spent db k ∨ ∃ t ∈ txs, t.Spends k) :
    Spent (writeTxs db txs) k ↔
      ∀ pre tx post, txs = pre ++ tx :: post → tx.Creates k → ∃ t ∈ post, t.Spends k := by
  constructor
  · rintro hs pre tx post rfl hc
    have hn : ¬Spent (writeTxCM (writeTxs db pre) tx) k := by
      rw [spent_writeTxCM]
      exact fun h => h.1 hc
    rw [writeTxs_append, writeTxs_cons] at hs
    exact spends_of_spent_writeTxs post _ hn hs
  · intro hall
    by_cases hc : ∃ t ∈ txs, t.Creates k
    · obtain ⟨pre, tx, post, rfl, hcr, hpost⟩ := exists_last_creates txs hc
      rw [writeTxs_append, writeTxs_cons]
      exact spent_writeTxs_of_no_create post hpost _ (Or.inr (hall pre tx post rfl hcr))
    · push Not at hc
      exact spent_writeTxs_of_no_create txs hc db h

/-- What was spent before the block is spent after it, and so is every `CmO` of its transfers. -/
def KeepsSpent (db : CMdb) (block : Block) : Prop :=
  (∀ c, Spent db (cmHash c) → Spent (writeAllCM db block) (cmHash c)) ∧
    ∀ tx ∈ block.transactions, tx.id = 0 → Spent (writeAllCM db block) (cmHash tx.cmO)

/-- **When a block keeps spent commitments spent.** Exactly when every commitment
that is spent already, or that the block itself spends, and that a transaction of
the block creates again, is spent by a later transaction of the block. -/
theorem keepsSpent_iff (db : CMdb) (block : Block) : KeepsSpent db block ↔
      ∀ pre tx post, block.transactions = pre ++ tx :: post → ∀ c, tx.Creates (cmHash c) →
          (Spent db (cmHash c) ∨ ∃ t ∈ block.transactions, t.Spends (cmHash c)) →
          ∃ t ∈ post, t.Spends (cmHash c) := by
  constructor
  · rintro ⟨hdb, hblock⟩ pre tx post heq c hc hor
    refine (spent_writeTxs_iff block.transactions db hor).mp ?_ pre tx post heq hc
    rcases hor with h | ⟨t, ht, h0, hk⟩
    · exact hdb c h
    · rw [← hk]
      exact hblock t ht h0
  · intro hall
    refine ⟨fun c h => ?_, fun tx htx h0 => ?_⟩
    · exact (spent_writeTxs_iff block.transactions db (Or.inl h)).mpr
        fun pre tx post heq hc => hall pre tx post heq c hc (Or.inl h)
    · have hs : ∃ t ∈ block.transactions, t.Spends (cmHash tx.cmO) := ⟨tx, htx, h0, rfl⟩
      exact (spent_writeTxs_iff block.transactions db (Or.inr hs)).mpr
        fun pre t post heq hc => hall pre t post heq tx.cmO hc (Or.inr hs)

end

attribute [local instance] HashFns.plain

/-- A transfer that returns its change to the commitment it spends. -/
def selfTransfer : Transaction :=
  { (default : Transaction) with id := 0, cmO := [7], cmS := [8], cmR := [7] }

theorem not_keepsSpent_selfTransfer :
    ¬KeepsSpent emptyCMdb { (default : Block) with transactions := [selfTransfer] } := by
  rintro ⟨-, h⟩
  have hs := h selfTransfer List.mem_cons_self rfl
  revert hs
  decide

end RawDB

end GethComments
