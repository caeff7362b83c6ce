import GethComments.Core.ChainCommitments
import GethComments.Core.LedgerProperties
import GethComments.Core.PoolOperations

/-!
# Runs of the pool and the chain

The pool and the commitment database as one state machine, whose steps are the operations of
the pool and the writing of blocks.

* `reaches_run`: from an empty pool every run is a run of legal events on the ledger;
* `invariant_run`: what legal events preserve holds at the end of every run of the pool;
* `stored_run`: the blocks of the ledger are those that the run has written.
-/

namespace GethComments

open BlockChain List

variable [HashFns]

/-! ## Steps -/

inductive PoolOp where
  | add (tx : Transaction) (isLocal : Bool)
  | removeTx (hash : Hash) (outofbound : Bool)
  | promoteExecutables (accounts : List Address) (now : Address → Nat)
  | demoteUnexecutables (order : List Address)
  | truncatePending (order : List Address)
  | truncateQueue (order : List Address)
  | reset (oldHead : Option Header) (newHead : Header)
  | writeBlock (w : BlockWrite)

namespace TxPool

/-- `writeBlockWithState` on the chain of the pool. -/
def writeBlock (pool : TxPool) (w : BlockWrite) : TxPool :=
  { pool with
    chain := (pool.chain.writeBlockWithState w).1
    events := if pool.chain.Writes w then .store w.block :: pool.events else pool.events }

def step (pool : TxPool) : PoolOp → TxPool
  | .add tx isLocal => (pool.add tx isLocal).1
  | .removeTx hash outofbound => pool.removeTx hash outofbound
  | .promoteExecutables accounts now => (pool.promoteExecutables now accounts).1
  | .demoteUnexecutables order => pool.demoteUnexecutables order
  | .truncatePending order => pool.truncatePending order
  | .truncateQueue order => pool.truncateQueue order
  | .reset oldHead newHead => pool.reset oldHead newHead
  | .writeBlock w => pool.writeBlock w

def run (pool : TxPool) (ops : List PoolOp) : TxPool := ops.foldl step pool

/-- No transaction is in the pool, and nothing has happened yet. -/
structure IsEmpty (pool : TxPool) : Prop where
  all : ∀ hash, pool.all.get hash = none
  pending : pool.pending = ∅
  queue : pool.queue = ∅
  events : pool.events = []

/-- `NewTxPool` over a chain. -/
def newTxPool (config : TxPoolConfig) (chain : BlockChain) (signer : Transaction → Option Address)
    (journal : Option (List Transaction)) : TxPool :=
  let config := config.sanitize
  reset {
    config := config, chain := chain, signer := signer
    currentState := default, pendingNonces := TxNoncer.new default, currentMaxGas := 0
    locals := config.locals, journal := journal, pending := ∅, queue := ∅, beats := fun _ => none
    all := TxLookup.empty, priced := TxPricedList.empty, events := [] }
    none chain.currentBlock.header

section

variable (config : TxPoolConfig) (chain : BlockChain) (signer : Transaction → Option Address)
  (journal : Option (List Transaction))
include config chain signer journal

theorem isEmpty_newTxPool : (newTxPool config chain signer journal).IsEmpty := by
  unfold newTxPool reset
  dsimp only [Option.map_none, Option.getD_none]
  split <;> exact ⟨fun _ => rfl, rfl, rfl, rfl⟩

theorem chain_newTxPool : (newTxPool config chain signer journal).chain = chain := by
  unfold newTxPool reset
  dsimp only [Option.map_none, Option.getD_none]
  split <;> rfl

end

/-! ## Every run is legal -/

variable {K : CMEvent → Prop} {pool0 pool : TxPool}

/-- The operations of the pool itself take transactions in and out, and write no block. -/
def IsPoolEvent : CMEvent → Prop
  | .store _ => False
  | _ => True

theorem Reaches.poolStep (h : Reaches K pool0 [] pool) (hK : ∀ e, IsPoolEvent e → K e)
    (op : PoolOp) (hop : ∀ w, op ≠ .writeBlock w) : Reaches K pool0 [] (pool.step op) := by
  have hl : ∀ t, K (.lock t) := fun t => hK _ trivial
  have hu : ∀ t, K (.unlock t) := fun t => hK _ trivial
  have hf : ∀ t, K (.forget t) := fun t => hK _ trivial
  cases op with
  | add tx isLocal => exact h.add hu tx (hl tx) isLocal
  | removeTx hash outofbound => exact h.removeTx hu hash outofbound
  | promoteExecutables accounts now => exact h.promoteExecutables hu now accounts
  | demoteUnexecutables order => exact h.demoteUnexecutables hu hf order
  | truncatePending order => exact h.truncatePending hu order
  | truncateQueue order => exact h.truncateQueue hu order
  | reset oldHead newHead => exact h.reset hu hl oldHead newHead
  | writeBlock w => exact absurd rfl (hop w)

theorem ledger_writeBlock (pool : TxPool) (w : BlockWrite) : (pool.writeBlock w).ledger =
      if pool.chain.Writes w then pool.ledger.step (.store w.block) else pool.ledger := by
  have hdb := cmdb_writeBlockWithState pool.chain w
  by_cases hw : pool.chain.Writes w
  · simp only [if_pos hw] at hdb ⊢
    simp [ledger, writeBlock, Ledger.step, hdb, hw]
  · simp only [if_neg hw] at hdb ⊢
    simp [ledger, writeBlock, hdb, hw]

theorem Reaches.writeBlock (h : Reaches K pool0 [] pool) (w : BlockWrite)
    (hK : K (.store w.block)) : Reaches K pool0 [] (pool.writeBlock w) := by
  have hledger := ledger_writeBlock pool w
  by_cases hw : pool.chain.Writes w
  · rw [if_pos hw] at hledger
    have hcore : (pool.writeBlock w).core = pool.core.event (.store w.block) := by
      rw [core, hledger]
      rfl
    exact h.event hcore rfl (h.inv.store w.block) hK trivial
  · rw [if_neg hw] at hledger
    refine h.frame ?_ rfl
    rw [core, hledger]
    rfl

abbrev Legally : CMEvent → Prop := fun _ => True

theorem reaches_step (h : Reaches Legally pool0 [] pool) (op : PoolOp) :
    Reaches Legally pool0 [] (pool.step op) := by
  by_cases hop : ∃ w, op = .writeBlock w
  · obtain ⟨w, rfl⟩ := hop
    exact h.writeBlock w trivial
  · exact h.poolStep (fun _ _ => trivial) op fun w hw => hop ⟨w, hw⟩

theorem reaches_run (h : Reaches Legally pool0 [] pool) (ops : List PoolOp) :
    Reaches Legally pool0 [] (pool.run ops) := by
  induction ops generalizing pool with
  | nil => exact h
  | cons op ops ih => exact ih (reaches_step h op)

theorem IsEmpty.not_has (h : pool.IsEmpty) (tx : Transaction) : ¬pool.ledger.Has tx := by
  intro hhas
  have hget : pool.all.get tx.hash = some tx := hhas
  rw [h.all] at hget
  cases hget

theorem IsEmpty.slots (h : pool.IsEmpty) (p : Place) (a : Address) (n : UInt64) :
    pool.core.slots p a n = none := by
  cases p with
  | pending =>
    show listAt pool.pending a n = none
    rw [h.pending]
    rfl
  | queued =>
    show listAt pool.queue a n = none
    rw [h.queue]
    rfl

theorem IsEmpty.reaches (h : pool.IsEmpty) : Reaches Legally pool [] pool := by
  refine ⟨?_, fun a l hl => ?_, Ledger.Evolves.refl _ _, rfl⟩
  · constructor
    case listed =>
      intro p a n t ht
      rw [h.slots] at ht
      cases ht
    case single => exact fun a n => Or.inl (h.slots .pending a n)
    case flight => exact fun t ht => absurd ht not_mem_nil
    case apart => exact List.Pairwise.nil
    case covered => exact fun t ht => absurd ht (h.not_has t)
    case recorded => exact fun t ht => absurd ht (h.not_has t)
  · rw [h.queue] at hl
    cases hl

/-! ## Histories -/

/-- The effects of a run on commitments, in the order in which they happened. -/
def history (pool : TxPool) : List CMEvent := pool.events.reverse

theorem Reaches.history (h : Reaches K pool0 [] pool) :
    ∃ es, (∀ e ∈ es, K e) ∧ pool.events = es.reverse ++ pool0.events ∧
      Run.Along Ledger.step Ledger.Legal pool0.ledger es ∧
      pool.ledger = es.foldl Ledger.step pool0.ledger := by
  obtain ⟨es, hK, hal, heq⟩ := h.evolves
  have hh := congrArg Ledger.history heq
  rw [Ledger.history_foldl] at hh
  exact ⟨es, hK, hh.symm, hal, heq.symm⟩

theorem IsEmpty.history (h : pool.IsEmpty) (ops : List PoolOp) :
    Run.Along Ledger.step Ledger.Legal pool.ledger (pool.run ops).history ∧
      (pool.run ops).ledger = (pool.run ops).history.foldl Ledger.step pool.ledger := by
  obtain ⟨es, -, hes, hal, heq⟩ := (reaches_run h.reaches ops).history
  have hhist : (pool.run ops).history = es := by
    rw [TxPool.history, hes, h.events, append_nil, reverse_reverse]
  rw [hhist]
  exact ⟨hal, heq⟩

/-- **Invariant rule for runs of the pool.** What legal events under the condition `ok` preserve
holds at the end of every run whose history meets the condition. -/
theorem invariant_run {ok : Ledger → CMEvent → Prop} {P : Ledger → Prop}
    (hstep : ∀ L e, P L → L.LegalAnd ok e → P (L.step e)) (h : pool.IsEmpty) (ops : List PoolOp)
    (hP : P pool.ledger) (hok : Run.Along Ledger.step ok pool.ledger (pool.run ops).history) :
    P (pool.run ops).ledger := by
  obtain ⟨hal, heq⟩ := h.history ops
  rw [heq]
  exact Run.invariant hstep _ _ hP (Run.along_and hal hok)

/-- What comes after the first operations of a run is a legal run of the ledger from where they
lead, under every condition that the whole run meets. -/
theorem along_rest {ok : Ledger → CMEvent → Prop} (h : pool.IsEmpty) (ops rest : List PoolOp)
    (hok : Run.Along Ledger.step ok pool.ledger (pool.run (ops ++ rest)).history) :
    ∃ es, (pool.run (ops ++ rest)).history = (pool.run ops).history ++ es ∧
      Run.Along Ledger.step ok pool.ledger (pool.run ops).history ∧
      Run.Along Ledger.step (Ledger.LegalAnd ok) (pool.run ops).ledger es := by
  have hrun : pool.run (ops ++ rest) = (pool.run ops).run rest := foldl_append
  obtain ⟨es, -, hes, hal, -⟩ :=
    (reaches_run ((reaches_run h.reaches ops).rebase Legally) rest).history
  have hhist : (pool.run (ops ++ rest)).history = (pool.run ops).history ++ es := by
    rw [TxPool.history, hrun, hes, reverse_append, reverse_reverse, TxPool.history]
  rw [hhist, Run.along_append, ← (h.history ops).2] at hok
  exact ⟨es, hhist, hok.1, Run.along_and hal hok.2⟩

/-! ## Written blocks -/

theorem stored_step (h : Reaches Legally pool0 [] pool) (op : PoolOp) (block : Block) :
    (pool.step op).ledger.Stored block ↔
      (∃ w, op = .writeBlock w ∧ pool.chain.Writes w ∧ w.block = block) ∨
        pool.ledger.Stored block := by
  by_cases hop : ∃ w, op = .writeBlock w
  · obtain ⟨w, rfl⟩ := hop
    show (pool.writeBlock w).ledger.Stored block ↔ _
    rw [ledger_writeBlock]
    by_cases hw : pool.chain.Writes w
    · simp [hw, Ledger.stored_step]
    · simp [hw]
  · have hbase : Reaches IsPoolEvent pool [] pool := h.rebase _
    obtain ⟨es, hK, -, -, heq⟩ :=
      (hbase.poolStep (fun _ he => he) op fun w hw => hop ⟨w, hw⟩).history
    have hnot : CMEvent.store block ∉ es := fun hm => hK _ hm
    have hno : ¬∃ w, op = .writeBlock w ∧ pool.chain.Writes w ∧ w.block = block :=
      fun ⟨w, hw, _⟩ => hop ⟨w, hw⟩
    rw [or_iff_right hno, Ledger.Stored, heq, Ledger.history_foldl]
    simp [hnot, Ledger.Stored]

theorem stored_run (h : pool.IsEmpty) (ops : List PoolOp) (block : Block) :
    (pool.run ops).ledger.Stored block ↔ ∃ before w after, ops = before ++ .writeBlock w :: after ∧
        (pool.run before).chain.Writes w ∧ w.block = block := by
  induction ops using reverseRecOn with
  | nil =>
    have hnone : ¬pool.ledger.Stored block := by
      show CMEvent.store block ∉ pool.events
      rw [h.events]
      exact not_mem_nil
    simp [run, hnone]
  | append_singleton ops op ih =>
    have hrun : pool.run (ops ++ [op]) = (pool.run ops).step op := by simp [run]
    rw [hrun, stored_step (reaches_run h.reaches ops), ih]
    constructor
    · rintro (⟨w, rfl, hw, hb⟩ | ⟨before, w, after, rfl, hw, hb⟩)
      · exact ⟨ops, w, [], rfl, hw, hb⟩
      · exact ⟨before, w, after ++ [op], by simp, hw, hb⟩
    · rintro ⟨before, w, after, heq, hw, hb⟩
      rcases eq_nil_or_concat after with rfl | ⟨after', op', rfl⟩
      · obtain ⟨rfl, hop⟩ := append_inj' heq rfl
        exact Or.inl ⟨w, head_eq_of_cons_eq hop, hw, hb⟩
      · refine Or.inr ⟨before, w, after', ?_, hw, hb⟩
        rw [concat_eq_append, ← cons_append, ← append_assoc] at heq
        exact (append_inj' heq rfl).1

end TxPool

end GethComments
