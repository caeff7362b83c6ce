import GethComments.State.StateDB
import GethComments.Lib.Undo
import Mathlib.Data.Set.Basic

/-!
# The state without its caches

What a state database is for: the accounts as they are read, the addresses whose accounts wait to
be written, and the journal. The objects here are views, so that loading an account, a slot or a
code is no change at all. An address without a cached object has the view of the account in the
trie.

* `revert_effect`, `undo_create`: undoing the entry of a change gives back the ledger before it, up
  to the mark that a touched `ripemd` leaves;
* `journalLog`: the journal as an undo log;
* `undoes_op`: what an operation has done can be undone.
-/

namespace GethComments.State

open Function Option

/-- The account an operation is about. -/
def AccountOp.target : AccountOp → Address
  | setBalance addr _ => addr
  | addBalance addr _ => addr
  | subBalance addr _ => addr
  | setNonce addr _ => addr
  | setCode addr _ => addr
  | setState addr _ _ => addr
  | createAccount addr => addr
  | suicide addr => addr

/-- The entries of a ledger remember views. -/
abbrev Entry := JournalEntry (Address × View)

/-- How often an entry marks `ripemd` besides being its entry. -/
def JournalEntry.marks {ω : Type} : JournalEntry ω → Nat
  | touchChange account => if account = ripemd then 1 else 0
  | _ => 0

@[ext] structure Ledger where
  trie : Root
  objects : Address → Option View
  pending : Set Address
  dirty : Set Address
  refund : UInt64
  thash : Hash
  bhash : Hash
  txIndex : Int64
  logs : Hash → List Log
  logSize : UInt64
  preimages : Hash → Option Bytes
  entries : List Entry
  /-- How often `ripemd` has been marked dirty besides its entries. -/
  marks : Nat

namespace Ledger

/-- The account, unless it has been deleted. -/
def live (l : Ledger) (addr : Address) : Option View := (l.objects addr).filter (!·.deleted)

def record (l : Ledger) (e : Entry) : Ledger := { l with entries := e :: l.entries }

def put (l : Ledger) (addr : Address) (v : View) : Ledger :=
  { l with objects := update l.objects addr (some v) }

def mark (l : Ledger) (n : Nat) : Ledger := { l with marks := l.marks + n }

/-- A journal entry, with the mark of a touched `ripemd`. -/
def push (l : Ledger) (e : Entry) : Ledger := (l.record e).mark e.marks

theorem objects_put (l : Ledger) (addr : Address) (v : View) :
    (l.put addr v).objects addr = some v := update_self ..

theorem put_put (l : Ledger) (addr : Address) (v w : View) :
    (l.put addr v).put addr w = l.put addr w := by
  simp only [put, update_idem]

variable {l : Ledger} {addr : Address} {v : View}

theorem put_of_objects (h : l.objects addr = some v) : l.put addr v = l := by
  simp only [put, ← h, update_eq_self]

theorem live_put (h : v.deleted = false) : (l.put addr v).live addr = some v := by
  simp [live, objects_put, Option.filter, h]

theorem live_eq_some : l.live addr = some v ↔ l.objects addr = some v ∧ v.deleted = false := by
  simp [live, Option.filter_eq_some_iff]

/-- A change of the account, if it is there. -/
def onObject (l : Ledger) (addr : Address) (f : View → View) : Option Ledger :=
  (l.live addr).map fun v => l.put addr (f v)

theorem onObject_put (hv : v.deleted = false) (f : View → View) :
    (l.put addr v).onObject addr f = some (l.put addr (f v)) := by
  rw [onObject, live_put hv, map_some, put_put]

theorem mark_zero (l : Ledger) : l.mark 0 = l := rfl

theorem mark_mark (l : Ledger) (m n : Nat) : (l.mark m).mark n = l.mark (m + n) := by
  simp only [mark, Nat.add_assoc]

theorem restored (h : l.objects addr = some v) (e : Entry) :
    { (l.push e).put addr v with entries := l.entries } = l.mark e.marks := by
  have hput : (l.push e).put addr v = l.push e := put_of_objects h
  rw [hput]
  rfl

/-! ## Reading -/

section

variable [HashFns]

def accountQuery (l : Ledger) : AccountQuery → Answer
  | .exist addr => .bool (l.live addr).isSome
  | .empty addr => .bool (((l.live addr).map View.empty).getD true)
  | .getBalance addr => .amount (((l.live addr).map View.balance).getD 0)
  | .getNonce addr => .number (((l.live addr).map View.nonce).getD 0)
  | .getCode addr => .bytes (((l.live addr).map View.code).getD [])
  | .getCodeHash addr => .bytes (((l.live addr).map View.codeHash).getD zeroHash)
  | .getState addr key => .bytes (((l.live addr).map (·.state key)).getD zeroHash)
  | .getCommittedState addr key => .bytes (((l.live addr).map (·.committed key)).getD zeroHash)
  | .hasSuicided addr => .bool (((l.live addr).map View.suicided).getD false)

def query (l : Ledger) : Query → Answer
  | .account q => l.accountQuery q
  | .getRefund => .number l.refund
  | .getLogs hash => .logs (l.logs hash)
  | .getPreimage hash => .preimage (l.preimages hash)

end

/-! ## The end of a transaction -/

/-- The journal says that the account has changed. -/
def Changed (l : Ledger) (addr : Address) : Prop :=
  addr ∈ l.entries.filterMap JournalEntry.dirtied ∨ 0 < l.marks ∧ addr = ripemd

/-- The addresses that the end of the transaction adds to those that wait to be written. -/
def changedObjects (l : Ledger) : Set Address := {addr | l.Changed addr ∧ l.objects addr ≠ none}

open Classical in
noncomputable def clearJournalAndRefund (l : Ledger) : Ledger :=
  if l.entries = [] then l else { l with entries := [], marks := 0, refund := 0 }

open Classical in
noncomputable def finaliseObjects [HashFns] (l : Ledger) (deleteEmptyObjects : Bool) : Ledger :=
  { l with
    objects := fun addr =>
      if l.Changed addr then (l.objects addr).map (View.finalise deleteEmptyObjects)
      else l.objects addr
    pending := l.changedObjects ∪ l.pending
    dirty := l.changedObjects ∪ l.dirty }

noncomputable def finalise [HashFns] (l : Ledger) (deleteEmptyObjects : Bool) : Ledger :=
  (l.finaliseObjects deleteEmptyObjects).clearJournalAndRefund

/-- A pending account that cannot be encoded. -/
def Unencodable (l : Ledger) : Prop := ∃ addr ∈ l.pending, ∃ v, l.live addr = some v ∧ v.balance < 0

open Classical in
/-- The pending accounts are written. -/
noncomputable def write (l : Ledger) : Ledger :=
  { l with
    trie := fun addr =>
      if addr ∈ l.pending then (l.live addr).map View.account else l.trie addr
    objects := fun addr =>
      if addr ∈ l.pending then (l.objects addr).map View.settle else l.objects addr
    pending := ∅ }

open Classical in
noncomputable def intermediateRoot [HashFns] (l : Ledger) (deleteEmptyObjects : Bool) :
    Option (Root × Ledger) :=
  if (l.finalise deleteEmptyObjects).Unencodable then none
  else some ((l.finalise deleteEmptyObjects).write.trie, (l.finalise deleteEmptyObjects).write)

open Classical in
noncomputable def settleDirty (l : Ledger) : Ledger :=
  { l with
    objects := fun addr =>
      if addr ∈ l.dirty then (l.objects addr).map View.settle else l.objects addr
    dirty := ∅ }

noncomputable def commit [HashFns] (l : Ledger) (deleteEmptyObjects : Bool) :
    Option (Root × Ledger) :=
  (l.intermediateRoot deleteEmptyObjects).map fun p => (p.1, p.2.settleDirty)

open Classical in
noncomputable def copy [HashFns] [Database] (l : Ledger) : Ledger where
  trie := l.trie
  objects addr :=
    if l.Changed addr ∨ addr ∈ l.pending ∨ addr ∈ l.dirty then l.objects addr
    else (l.trie addr).map View.ofAccount
  pending := l.changedObjects ∪ l.pending
  dirty := l.changedObjects ∪ l.dirty
  refund := l.refund
  thash := zeroHash
  bhash := zeroHash
  txIndex := 0
  logs := l.logs
  logSize := l.logSize
  preimages := l.preimages
  entries := []
  marks := 0

section

variable {b : Bool}

theorem clear_fields (l : Ledger) : l.clearJournalAndRefund.trie = l.trie ∧
    l.clearJournalAndRefund.objects = l.objects ∧ l.clearJournalAndRefund.pending = l.pending ∧
    l.clearJournalAndRefund.dirty = l.dirty := by
  unfold clearJournalAndRefund
  split <;> exact ⟨rfl, rfl, rfl, rfl⟩

theorem trie_write (h : addr ∈ l.pending) : l.write.trie addr = (l.live addr).map View.account :=
  if_pos h

theorem trie_write_of_not (h : addr ∉ l.pending) : l.write.trie addr = l.trie addr := if_neg h

variable [HashFns]

theorem trie_finalise (l : Ledger) (b : Bool) : (l.finalise b).trie = l.trie := (clear_fields _).1

theorem pending_finalise (l : Ledger) (b : Bool) :
    (l.finalise b).pending = l.changedObjects ∪ l.pending := (clear_fields _).2.2.1

theorem objects_finalise (h : l.Changed addr) :
    (l.finalise b).objects addr = (l.objects addr).map (View.finalise b) :=
  (congrFun (clear_fields _).2.1 addr).trans (if_pos h)

theorem objects_finalise_of_not (h : ¬ l.Changed addr) :
    (l.finalise b).objects addr = l.objects addr :=
  (congrFun (clear_fields _).2.1 addr).trans (if_neg h)

end

/-! ## Operations -/

variable [HashFns] [Database]

def newView : View := View.ofAccount Account.new

def create (l : Ledger) (addr : Address) : Ledger :=
  match l.objects addr with
  | none => (l.push (.createObjectChange addr)).put addr newView
  | some prev => (l.push (.resetObjectChange (addr, prev))).put addr newView

def getOrNew (l : Ledger) (addr : Address) : View × Ledger :=
  match l.live addr with
  | some v => (v, l)
  | none => (newView, l.create addr)

omit [Database] in
/-- What an operation changes in an account that exists: the entry, and the account after it. -/
def effect (v : View) : AccountOp → Option (Entry × View)
  | .setBalance addr amount => some (.balanceChange addr v.balance, { v with balance := amount })
  | .addBalance addr amount =>
    if amount = 0 then
      if v.empty then some (.touchChange addr, v) else none
    else some (.balanceChange addr v.balance, { v with balance := v.balance + amount })
  | .subBalance addr amount =>
    if amount = 0 then none
    else some (.balanceChange addr v.balance, { v with balance := v.balance - amount })
  | .setNonce addr nonce => some (.nonceChange addr v.nonce, { v with nonce })
  | .setCode addr code =>
    some (.codeChange addr v.code v.codeHash, { v with codeHash := HashFns.keccak256 code, code })
  | .setState addr key value =>
    if v.state key = value then none
    else some (.storageChange addr key (v.state key),
      { v with state := update v.state key value })
  | .suicide addr =>
    some (.suicideChange addr v.suicided v.balance, { v with suicided := true, balance := 0 })
  | .createAccount _ => none

def change (l : Ledger) (v : View) (op : AccountOp) : Ledger :=
  match effect v op with
  | none => l
  | some (e, v) => (l.push e).put op.target v

/-- The account that is created at an address, with the balance of the one it replaces. -/
def createAccount (l : Ledger) (addr : Address) : Ledger :=
  (l.create addr).put addr
    { newView with balance := ((l.objects addr).map View.balance).getD 0 }

def accountOp (l : Ledger) (op : AccountOp) : Answer × Ledger :=
  match op with
  | .createAccount addr => (.none, l.createAccount addr)
  | .suicide addr =>
    match l.live addr with
    | none => (.bool false, l)
    | some v => (.bool true, l.change v op)
  | op => (.none, (l.getOrNew op.target).2.change (l.getOrNew op.target).1 op)

def op (l : Ledger) : Op → Option (Answer × Ledger)
  | .query q => some (l.query q, l)
  | .account op => some (l.accountOp op)
  | .addLog log =>
    let log := { log with
      txHash := l.thash, blockHash := l.bhash, txIndex := l.txIndex.toUInt64, index := l.logSize }
    some (.none, { l.push (.addLogChange l.thash) with
      logs := update l.logs l.thash (l.logs l.thash ++ [log])
      logSize := l.logSize + 1 })
  | .addRefund gas =>
    some (.none, { l.push (.refundChange l.refund) with refund := l.refund + gas })
  | .subRefund gas =>
    if gas > l.refund then none
    else some (.none, { l.push (.refundChange l.refund) with refund := l.refund - gas })
  | .addPreimage hash preimage =>
    match l.preimages hash with
    | some _ => some (.none, l)
    | none => some (.none, { l.push (.addPreimageChange hash) with
        preimages := update l.preimages hash (some preimage) })

/-! ## Undoing -/

def revert (e : Entry) (l : Ledger) : Option Ledger :=
  match e with
  | .createObjectChange addr => some { l with
      objects := update l.objects addr ((l.trie addr).map View.ofAccount)
      dirty := l.dirty \ {addr} }
  | .resetObjectChange prev => some (l.put prev.1 prev.2)
  | .suicideChange addr prev prevbalance =>
    match l.live addr with
    | none => some l
    | some v => some (l.put addr { v with suicided := prev, balance := prevbalance })
  | .balanceChange addr prev => l.onObject addr fun v => { v with balance := prev }
  | .nonceChange addr prev => l.onObject addr fun v => { v with nonce := prev }
  | .storageChange addr key prevalue =>
    l.onObject addr fun v => { v with state := update v.state key prevalue }
  | .codeChange addr prevcode prevhash =>
    l.onObject addr fun v => { v with codeHash := prevhash, code := prevcode }
  | .refundChange prev => some { l with refund := prev }
  | .addLogChange txhash =>
    if l.logs txhash = [] then none
    else some { l with
      logs := update l.logs txhash (l.logs txhash).dropLast
      logSize := l.logSize - 1 }
  | .addPreimageChange hash =>
    some { l with preimages := update l.preimages hash none }
  | .touchChange _ => some l

def undo (l : Ledger) : Option Ledger :=
  match l.entries with
  | [] => none
  | e :: entries => (revert e l).map fun l => { l with entries }

/-- What is written out, or waits to be, has an object. -/
structure Inv (l : Ledger) : Prop where
  trie : ∀ addr, l.objects addr = none → l.trie addr = none
  pending : ∀ addr ∈ l.pending, l.objects addr ≠ none
  dirty : ∀ addr ∈ l.dirty, l.objects addr ≠ none

theorem revert_mark (e : Entry) (l : Ledger) (n : Nat) :
    revert e (l.mark n) = (revert e l).map (·.mark n) := by
  cases e with
  | createObjectChange addr => rfl
  | resetObjectChange prev => rfl
  | suicideChange addr prev prevbalance =>
    have hlive : (l.mark n).live addr = l.live addr := rfl
    simp only [revert, hlive]
    cases l.live addr <;> rfl
  | balanceChange _ _ | nonceChange _ _ | storageChange _ _ _ | codeChange _ _ _ =>
    simp only [revert, onObject, map_map]
    rfl
  | refundChange prev => rfl
  | addLogChange txhash =>
    have hlogs : (l.mark n).logs = l.logs := rfl
    simp only [revert, hlogs]
    split <;> rfl
  | addPreimageChange hash => rfl
  | touchChange addr => rfl

theorem undo_mark (l : Ledger) (n : Nat) : undo (l.mark n) = (undo l).map (·.mark n) := by
  have hentries : (l.mark n).entries = l.entries := rfl
  unfold undo
  rw [hentries]
  cases l.entries with
  | nil => rfl
  | cons e entries =>
    simp only [revert_mark, map_map]
    rfl

/-- The journal as an undo log; marks stay only if `ripemd` is touched. -/
def journalLog (touched : Prop) : UndoLog Ledger where
  depth l := l.entries.length
  undo := undo
  Restores l c := ∃ n, c = l.mark n ∧ (n ≠ 0 → touched)
  refl l := ⟨0, rfl, fun h => absurd rfl h⟩
  trans := by
    rintro a b c ⟨m, rfl, hm⟩ ⟨n, rfl, hn⟩
    refine ⟨m + n, mark_mark a m n, fun h => ?_⟩
    by_cases hm0 : m = 0
    · exact hn fun hn0 => h (by omega)
    · exact hm hm0
  depth_eq := by
    rintro a b ⟨n, rfl, -⟩
    rfl
  undo_congr := by
    rintro a b a' ⟨n, rfl, hn⟩ ha
    exact ⟨a'.mark n, by rw [undo_mark, ha, map_some], n, rfl, hn⟩

theorem undo_push_put (l : Ledger) (e : Entry) (addr : Address) (v : View) :
    undo ((l.push e).put addr v) =
      (revert e ((l.push e).put addr v)).map fun l' => { l' with entries := l.entries } := rfl

theorem revert_effect {v' : View} {op : AccountOp} {e : Entry} (hv : v.deleted = false)
    (he : effect v op = some (e, v')) :
    revert e (l.put op.target v') = some (l.put op.target v) ∧
      (e.marks ≠ 0 → op = .addBalance ripemd 0) := by
  cases op with
  | setBalance addr amount =>
    cases he
    exact ⟨onObject_put (v := { v with balance := amount }) hv _, fun hm => absurd rfl hm⟩
  | addBalance addr amount =>
    simp only [effect] at he
    split at he
    · split at he
      · cases he
        subst amount
        refine ⟨rfl, fun hm => ?_⟩
        by_cases ha : addr = ripemd
        · rw [ha]
        · exact absurd (if_neg ha) hm
      · cases he
    · cases he
      exact ⟨onObject_put (v := { v with balance := v.balance + amount }) hv _,
        fun hm => absurd rfl hm⟩
  | subBalance addr amount =>
    simp only [effect] at he
    split at he
    · cases he
    · cases he
      exact ⟨onObject_put (v := { v with balance := v.balance - amount }) hv _,
        fun hm => absurd rfl hm⟩
  | setNonce addr nonce =>
    cases he
    exact ⟨onObject_put (v := { v with nonce }) hv _, fun hm => absurd rfl hm⟩
  | setCode addr code =>
    cases he
    exact ⟨onObject_put (v := { v with codeHash := HashFns.keccak256 code, code }) hv _,
      fun hm => absurd rfl hm⟩
  | setState addr key value =>
    simp only [effect] at he
    split at he
    · cases he
    · cases he
      refine ⟨(onObject_put (v := { v with state := update v.state key value }) hv _).trans
        ?_, fun hm => absurd rfl hm⟩
      simp only [update_idem, update_eq_self, AccountOp.target]
  | createAccount addr => cases he
  | suicide addr =>
    cases he
    refine ⟨?_, fun hm => absurd rfl hm⟩
    rw [revert, AccountOp.target, live_put (v := { v with suicided := true, balance := 0 }) hv]
    simp only [put_put]

theorem undo_create (h : l.Inv) (addr : Address) (w : View) :
    undo ((l.create addr).put addr w) = some l := by
  unfold create
  cases hobj : l.objects addr with
  | none =>
    have hdirty : l.dirty \ {addr} = l.dirty :=
      Set.sdiff_singleton_eq_self fun hmem => h.dirty addr hmem hobj
    have hobjects : update l.objects addr none = l.objects := by
      rw [← hobj, update_eq_self]
    simp only [put_put]
    rw [undo_push_put, revert, map_some]
    simp only [put, push, record, mark, update_idem, h.trie addr hobj, map_none,
      hdirty, hobjects]
    rfl
  | some prev =>
    simp only [put_put]
    rw [undo_push_put, revert, put_put, map_some, restored hobj]
    rfl

variable {touched : Prop}

theorem undoes_create (h : l.Inv) (addr : Address) (w : View) :
    (journalLog touched).Undoes l ((l.create addr).put addr w) := by
  refine .push ?_ (undo_create h addr w) ((journalLog touched).refl l)
  unfold create
  cases l.objects addr <;> rfl

theorem undoes_change {op : AccountOp} (hl : l.live op.target = some v)
    (ht : op = .addBalance ripemd 0 → touched) : (journalLog touched).Undoes l (l.change v op) := by
  unfold change
  cases he : effect v op with
  | none => exact .refl l
  | some p =>
    obtain ⟨e, v'⟩ := p
    obtain ⟨hobj, hv⟩ := live_eq_some.mp hl
    obtain ⟨hrevert, hmark⟩ := revert_effect (l := l.push e) hv he
    have hundo : undo ((l.push e).put op.target v') = some (l.mark e.marks) := by
      rw [undo_push_put, hrevert, map_some, restored hobj]
    exact .push rfl hundo ⟨e.marks, rfl, fun hm => ht (hmark hm)⟩

theorem live_create (l : Ledger) (addr : Address) : (l.create addr).live addr = some newView := by
  unfold create
  cases l.objects addr <;> exact live_put rfl

theorem live_getOrNew (l : Ledger) (addr : Address) :
    (l.getOrNew addr).2.live addr = some (l.getOrNew addr).1 := by
  unfold getOrNew
  cases h : l.live addr with
  | some v => exact h
  | none => exact live_create l addr

theorem undoes_getOrNew (h : l.Inv) (addr : Address) :
    (journalLog touched).Undoes l (l.getOrNew addr).2 := by
  unfold getOrNew
  cases l.live addr with
  | some v => exact .refl l
  | none =>
    have hobj : (l.create addr).objects addr = some newView :=
      (live_eq_some.mp (live_create l addr)).1
    have hu : (journalLog touched).Undoes l _ := undoes_create h addr newView
    rwa [put_of_objects hobj] at hu

theorem undoes_accountOp (h : l.Inv) (op : AccountOp) (ht : op = .addBalance ripemd 0 → touched) :
    (journalLog touched).Undoes l (l.accountOp op).2 := by
  unfold accountOp
  split
  · exact undoes_create h _ _
  · split
    · exact .refl l
    · exact undoes_change ‹_› ht
  · exact (undoes_getOrNew h _).trans (undoes_change (live_getOrNew l _) ht)

theorem undoes_op {l' : Ledger} {o : Op} {answer : Answer} (h : l.Inv)
    (ht : o = .account (.addBalance ripemd 0) → touched) (ho : l.op o = some (answer, l')) :
    (journalLog touched).Undoes l l' := by
  cases o with
  | query q =>
    cases ho
    exact .refl l
  | account op =>
    have hl : l' = (l.accountOp op).2 := congrArg Prod.snd (some.inj ho).symm
    rw [hl]
    exact undoes_accountOp h op fun heq => ht (congrArg Op.account heq)
  | addLog log =>
    cases ho
    refine .push (c := l) rfl ?_ ((journalLog touched).refl l)
    simp [journalLog, undo, push, record, mark, revert, JournalEntry.marks]
  | addRefund gas =>
    cases ho
    exact .push rfl rfl ((journalLog touched).refl l)
  | subRefund gas =>
    simp only [op] at ho
    split at ho
    · cases ho
    · cases ho
      exact .push rfl rfl ((journalLog touched).refl l)
  | addPreimage hash preimage =>
    simp only [op] at ho
    cases hp : l.preimages hash with
    | some p =>
      rw [hp] at ho
      cases ho
      exact .refl l
    | none =>
      rw [hp] at ho
      cases ho
      refine .push (c := l) rfl ?_ ((journalLog touched).refl l)
      have hpre : update l.preimages hash none = l.preimages := by
        rw [← hp, update_eq_self]
      simp only [journalLog, undo, push, record, mark, revert, update_idem, hpre]
      rfl

end Ledger

end GethComments.State
