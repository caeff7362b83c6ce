import GethComments.State.Object

/-!
# The state database

`statedb.go` and `journal.go`: the accounts of a state, cached as objects over the state trie, with
a journal of the changes of the running transaction. The state trie is given by its contents, and a
state root by the contents it commits to. Functions that can panic return an `Option`.

Go maps that are iterated are lists here: `stateObjectsPending` and `stateObjectsDirty` are sets of
addresses, and in `dirties` an address stands as often as the map counts it. The loops over them
treat every address on its own, so they are written for each address.
-/

namespace GethComments.State

/-- A state trie by its contents. -/
abbrev Root := Address → Option Account

structure Log where
  address : Address
  topics : List Hash
  data : Bytes
  blockNumber : UInt64
  txHash : Hash
  txIndex : UInt64
  blockHash : Hash
  index : UInt64
  removed : Bool
  deriving DecidableEq, Inhabited

/-! ## The journal -/

/-- The kinds of changes; a reset remembers the object that was replaced. -/
inductive JournalEntry (ω : Type)
  | createObjectChange (account : Address)
  | resetObjectChange (prev : ω)
  | suicideChange (account : Address) (prev : Bool) (prevbalance : Int)
  | balanceChange (account : Address) (prev : Int)
  | nonceChange (account : Address) (prev : UInt64)
  | storageChange (account : Address) (key prevalue : Hash)
  | codeChange (account : Address) (prevcode : Bytes) (prevhash : Hash)
  | refundChange (prev : UInt64)
  | addLogChange (txhash : Hash)
  | addPreimageChange (hash : Hash)
  | touchChange (account : Address)

def JournalEntry.dirtied {ω : Type} : JournalEntry ω → Option Address
  | createObjectChange account => some account
  | resetObjectChange _ => none
  | suicideChange account _ _ => some account
  | balanceChange account _ => some account
  | nonceChange account _ => some account
  | storageChange account _ _ => some account
  | codeChange account _ _ => some account
  | refundChange _ => none
  | addLogChange _ => none
  | addPreimageChange _ => none
  | touchChange account => some account

/-- The entries stand with the newest first. -/
structure Journal where
  entries : List (JournalEntry StateObject) := []
  dirties : List Address := []

namespace Journal

def append (j : Journal) (entry : JournalEntry StateObject) : Journal where
  entries := entry :: j.entries
  dirties := entry.dirtied.toList ++ j.dirties

def dirty (j : Journal) (addr : Address) : Journal := { j with dirties := addr :: j.dirties }

end Journal

/-- `0x0000000000000000000000000000000000000003`. -/
def ripemd : Address := List.replicate 19 0 ++ [3]

structure Revision where
  id : Nat
  journalIndex : Nat
  deriving DecidableEq

structure StateDB where
  trie : Root
  stateObjects : Address → Option StateObject := fun _ => none
  stateObjectsPending : List Address := []
  stateObjectsDirty : List Address := []
  refund : UInt64 := 0
  thash : Hash := zeroHash
  bhash : Hash := zeroHash
  txIndex : Int64 := 0
  logs : Hash → List Log := fun _ => []
  logSize : UInt64 := 0
  preimages : Hash → Option Bytes := fun _ => none
  journal : Journal := {}
  /-- The newest first. -/
  validRevisions : List Revision := []
  nextRevisionId : Nat := 0

namespace StateDB

/-- `New`. -/
def new (root : Root) : StateDB := { trie := root }

def append (s : StateDB) (entry : JournalEntry StateObject) : StateDB :=
  { s with journal := s.journal.append entry }

/-! ## Logs, preimages, refunds -/

def addLog (s : StateDB) (log : Log) : StateDB :=
  let s := s.append (.addLogChange s.thash)
  let log := { log with
    txHash := s.thash, blockHash := s.bhash, txIndex := s.txIndex.toUInt64, index := s.logSize }
  { s with
    logs := Function.update s.logs s.thash (s.logs s.thash ++ [log])
    logSize := s.logSize + 1 }

def addPreimage (s : StateDB) (hash : Hash) (preimage : Bytes) : StateDB :=
  match s.preimages hash with
  | some _ => s
  | none =>
    let s := s.append (.addPreimageChange hash)
    { s with preimages := Function.update s.preimages hash (some preimage) }

def addRefund (s : StateDB) (gas : UInt64) : StateDB :=
  let s := s.append (.refundChange s.refund)
  { s with refund := s.refund + gas }

def subRefund (s : StateDB) (gas : UInt64) : Option StateDB :=
  let s := s.append (.refundChange s.refund)
  if gas > s.refund then none else some { s with refund := s.refund - gas }

/-! ## Objects -/

def setStateObject (s : StateDB) (object : StateObject) : StateDB :=
  { s with stateObjects := Function.update s.stateObjects object.address (some object) }

def getDeletedStateObject (s : StateDB) (addr : Address) : Option StateObject × StateDB :=
  match s.stateObjects addr with
  | some obj => (some obj, s)
  | none =>
    match s.trie addr with
    | none => (none, s)
    | some data =>
      let obj := StateObject.newObject addr data
      (some obj, s.setStateObject obj)

def getStateObject (s : StateDB) (addr : Address) : Option StateObject × StateDB :=
  match s.getDeletedStateObject addr with
  | (some obj, s) => if obj.deleted then (none, s) else (some obj, s)
  | (none, s) => (none, s)

section

variable [HashFns]

/-- `createObject`: the new object and the one it replaces. -/
def createObject (s : StateDB) (addr : Address) : (StateObject × Option StateObject) × StateDB :=
  let (prev, s) := s.getDeletedStateObject addr
  let newobj := (StateObject.newObject addr Account.new).setNonce 0
  let s := match prev with
    | none => s.append (.createObjectChange addr)
    | some prev => s.append (.resetObjectChange prev)
  ((newobj, prev), s.setStateObject newobj)

def getOrNewStateObject (s : StateDB) (addr : Address) : StateObject × StateDB :=
  match s.getStateObject addr with
  | (some obj, s) => (obj, s)
  | (none, s) =>
    let ((obj, _), s) := s.createObject addr
    (obj, s)

/-! ## The setters of an object, with their journal entries -/

/-- `stateObject.touch`. -/
def touchObject (s : StateDB) (obj : StateObject) : StateDB :=
  let s := s.append (.touchChange obj.address)
  if obj.address = ripemd then { s with journal := s.journal.dirty obj.address } else s

/-- `stateObject.SetBalance`. -/
def setObjectBalance (s : StateDB) (obj : StateObject) (amount : Int) : StateDB :=
  (s.append (.balanceChange obj.address obj.data.balance)).setStateObject (obj.setBalance amount)

/-- `stateObject.AddBalance`. -/
def addObjectBalance (s : StateDB) (obj : StateObject) (amount : Int) : StateDB :=
  if amount = 0 then
    if obj.empty then s.touchObject obj else s
  else s.setObjectBalance obj (obj.data.balance + amount)

/-- `stateObject.SubBalance`. -/
def subObjectBalance (s : StateDB) (obj : StateObject) (amount : Int) : StateDB :=
  if amount = 0 then s else s.setObjectBalance obj (obj.data.balance - amount)

/-- `stateObject.SetNonce`. -/
def setObjectNonce (s : StateDB) (obj : StateObject) (nonce : UInt64) : StateDB :=
  (s.append (.nonceChange obj.address obj.data.nonce)).setStateObject (obj.setNonce nonce)

/-- `stateObject.SetCode`. -/
def setObjectCode [Database] (s : StateDB) (obj : StateObject) (codeHash : Hash) (code : Bytes) :
    StateDB :=
  let (prevcode, obj) := obj.loadCode
  (s.append (.codeChange obj.address prevcode obj.data.codeHash)).setStateObject
    (obj.setCode codeHash code)

/-- `stateObject.SetState`. -/
def setObjectState (s : StateDB) (obj : StateObject) (key value : Hash) : StateDB :=
  let (prev, obj) := obj.getState key
  if prev = value then s.setStateObject obj
  else (s.append (.storageChange obj.address key prev)).setStateObject (obj.setState key value)

/-! ## The setters of the state -/

def addBalance (s : StateDB) (addr : Address) (amount : Int) : StateDB :=
  let (obj, s) := s.getOrNewStateObject addr
  s.addObjectBalance obj amount

def subBalance (s : StateDB) (addr : Address) (amount : Int) : StateDB :=
  let (obj, s) := s.getOrNewStateObject addr
  s.subObjectBalance obj amount

def setBalance (s : StateDB) (addr : Address) (amount : Int) : StateDB :=
  let (obj, s) := s.getOrNewStateObject addr
  s.setObjectBalance obj amount

def setNonce (s : StateDB) (addr : Address) (nonce : UInt64) : StateDB :=
  let (obj, s) := s.getOrNewStateObject addr
  s.setObjectNonce obj nonce

def setCode [Database] (s : StateDB) (addr : Address) (code : Bytes) : StateDB :=
  let (obj, s) := s.getOrNewStateObject addr
  s.setObjectCode obj (HashFns.keccak256 code) code

def setState (s : StateDB) (addr : Address) (key value : Hash) : StateDB :=
  let (obj, s) := s.getOrNewStateObject addr
  s.setObjectState obj key value

def createAccount (s : StateDB) (addr : Address) : StateDB :=
  let ((newObj, prev), s) := s.createObject addr
  match prev with
  | none => s
  | some prev => s.setStateObject (newObj.setBalance prev.data.balance)

end

def suicide (s : StateDB) (addr : Address) : Bool × StateDB :=
  match s.getStateObject addr with
  | (none, s) => (false, s)
  | (some obj, s) =>
    (true, (s.append (.suicideChange addr obj.suicided obj.data.balance)).setStateObject
      (obj.markSuicided.setBalance 0))

/-! ## Snapshots -/

def snapshot (s : StateDB) : Nat × StateDB :=
  (s.nextRevisionId, { s with
    nextRevisionId := s.nextRevisionId + 1
    validRevisions := ⟨s.nextRevisionId, s.journal.entries.length⟩ :: s.validRevisions })

/-- What a reverted creation deletes. -/
def removeStateObject (s : StateDB) (addr : Address) : StateDB :=
  { s with
    stateObjects := Function.update s.stateObjects addr none
    stateObjectsDirty := s.stateObjectsDirty.filter (· ≠ addr) }

/-- `s.getStateObject(addr).f()`, a panic without an object. -/
def onObject (s : StateDB) (addr : Address) (f : StateObject → StateObject) : Option StateDB :=
  match s.getStateObject addr with
  | (none, _) => none
  | (some obj, s) => some (s.setStateObject (f obj))

end StateDB

/-! ## Kinds of calls -/

inductive Answer
  | none
  | bool (b : Bool)
  | amount (n : Int)
  | number (n : UInt64)
  | bytes (b : Bytes)
  | logs (ls : List Log)
  | preimage (p : Option Bytes)
  | root (r : Root)

inductive AccountQuery
  | exist (addr : Address)
  | empty (addr : Address)
  | getBalance (addr : Address)
  | getNonce (addr : Address)
  | getCode (addr : Address)
  | getCodeHash (addr : Address)
  | getState (addr : Address) (key : Hash)
  | getCommittedState (addr : Address) (key : Hash)
  | hasSuicided (addr : Address)

inductive Query
  | account (q : AccountQuery)
  | getRefund
  | getLogs (hash : Hash)
  | getPreimage (hash : Hash)

inductive AccountOp
  | setBalance (addr : Address) (amount : Int)
  | addBalance (addr : Address) (amount : Int)
  | subBalance (addr : Address) (amount : Int)
  | setNonce (addr : Address) (nonce : UInt64)
  | setCode (addr : Address) (code : Bytes)
  | setState (addr : Address) (key value : Hash)
  | createAccount (addr : Address)
  | suicide (addr : Address)

inductive Op
  | query (q : Query)
  | account (op : AccountOp)
  | addLog (log : Log)
  | addRefund (gas : UInt64)
  | subRefund (gas : UInt64)
  | addPreimage (hash : Hash) (preimage : Bytes)

inductive Call
  | op (op : Op)
  | snapshot
  | revertToSnapshot (revid : Nat)

inductive Action
  | call (c : Call)
  | prepare (thash bhash : Hash) (ti : Int64)
  | finalise (deleteEmptyObjects : Bool)
  | intermediateRoot (deleteEmptyObjects : Bool)
  | commit (deleteEmptyObjects : Bool)
  | copy

/-! ## The end of a transaction -/

/-- What `Finalise` does to a dirty object. -/
def StateObject.finaliseWith [HashFns] (deleteEmptyObjects : Bool) (obj : StateObject) :
    StateObject :=
  if obj.suicided || (deleteEmptyObjects && obj.empty) then { obj with deleted := true }
  else obj.finalise

/-- What `IntermediateRoot` does to a pending object. -/
def StateObject.updateLive (obj : StateObject) : StateObject :=
  if obj.deleted then obj else obj.updateRoot

/-- What `Commit` does to a dirty object; blobs are stored under their hash, so that inserting the
code changes nothing that can be read. -/
def StateObject.commitLive (obj : StateObject) : StateObject :=
  if obj.deleted then obj
  else
    let obj := if obj.code ≠ [] ∧ obj.dirtyCode then { obj with dirtyCode := false } else obj
    obj.commitTrie

/-! ## Reverting -/

/-- `revert` of the kinds of changes. -/
def JournalEntry.revert (ch : JournalEntry StateObject) (s : StateDB) : Option StateDB :=
  match ch with
  | createObjectChange account => some (s.removeStateObject account)
  | resetObjectChange prev => some (s.setStateObject prev)
  | suicideChange account prev prevbalance =>
    match s.getStateObject account with
    | (none, s) => some s
    | (some obj, s) =>
      some (s.setStateObject ({ obj with suicided := prev }.setBalance prevbalance))
  | balanceChange account prev => s.onObject account (·.setBalance prev)
  | nonceChange account prev => s.onObject account (·.setNonce prev)
  | storageChange account key prevalue => s.onObject account (·.setState key prevalue)
  | codeChange account prevcode prevhash => s.onObject account (·.setCode prevhash prevcode)
  | refundChange prev => some { s with refund := prev }
  | addLogChange txhash =>
    -- the slice of an empty list up to its length minus one
    if s.logs txhash = [] then none
    else some { s with
      logs := Function.update s.logs txhash (s.logs txhash).dropLast
      logSize := s.logSize - 1 }
  | addPreimageChange hash =>
    some { s with preimages := Function.update s.preimages hash none }
  | touchChange _ => some s

namespace StateDB

/-- The newest entry is dropped, and its dirty mark counted down. -/
def dropEntry (s : StateDB) (entry : JournalEntry StateObject)
    (entries : List (JournalEntry StateObject)) : StateDB :=
  { s with
    journal.entries := entries
    journal.dirties := match entry.dirtied with
      | some addr => s.journal.dirties.erase addr
      | none => s.journal.dirties }

/-- One round of the loop of `journal.revert`, with the entry dropped at once. -/
def revertLast (s : StateDB) : Option StateDB :=
  match s.journal.entries with
  | [] => none
  | entry :: entries => (entry.revert s).map (·.dropEntry entry entries)

def revertEntries : Nat → StateDB → Option StateDB
  | 0, s => some s
  | n + 1, s => s.revertLast.bind (revertEntries n)

/-- `journal.revert`. -/
def revertJournal (s : StateDB) (snapshot : Nat) : Option StateDB :=
  s.revertEntries (s.journal.entries.length - snapshot)

/-- `RevertToSnapshot`: the identifiers of the valid revisions ascend, so the newest one that is
not above `revid` is the only one that can be it. -/
def revertToSnapshot (s : StateDB) (revid : Nat) : Option StateDB :=
  match s.validRevisions.dropWhile (fun r => revid < r.id) with
  | [] => none
  | revision :: older =>
    if revision.id = revid then do
      let s ← s.revertJournal revision.journalIndex
      some { s with validRevisions := older }
    else none

def prepare (s : StateDB) (thash bhash : Hash) (ti : Int64) : StateDB :=
  { s with thash, bhash, txIndex := ti }

def clearJournalAndRefund (s : StateDB) : StateDB :=
  let s := if s.journal.entries = [] then s else { s with journal := {}, refund := 0 }
  { s with validRevisions := [] }

/-- The addresses of the journal that have an object. -/
def dirtyObjects (s : StateDB) : List Address :=
  s.journal.dirties.filter fun addr => (s.stateObjects addr).isSome

/-- The loop of `Finalise`. -/
def finaliseObjects [HashFns] (s : StateDB) (deleteEmptyObjects : Bool) : StateDB :=
  { s with
    stateObjects := fun addr =>
      if addr ∈ s.journal.dirties then
        (s.stateObjects addr).map (·.finaliseWith deleteEmptyObjects)
      else s.stateObjects addr
    stateObjectsPending := s.dirtyObjects ++ s.stateObjectsPending
    stateObjectsDirty := s.dirtyObjects ++ s.stateObjectsDirty }

def finalise [HashFns] (s : StateDB) (deleteEmptyObjects : Bool) : StateDB :=
  (s.finaliseObjects deleteEmptyObjects).clearJournalAndRefund

/-- What `deleteStateObject` or `updateStateObject` leaves in the state trie. -/
def writtenAccount (obj : StateObject) : Option Account :=
  if obj.deleted then none else some obj.updateRoot.data

/-- A pending address without an object, or with one that cannot be encoded: `rlp` does not encode
negative numbers. -/
def unencodable (s : StateDB) (addr : Address) : Bool :=
  match s.stateObjects addr with
  | none => true
  | some obj => !obj.deleted && decide (obj.data.balance < 0)

/-- The loop of `IntermediateRoot`. -/
def writeObjects (s : StateDB) : StateDB :=
  { s with
    trie := fun addr =>
      if addr ∈ s.stateObjectsPending then (s.stateObjects addr).bind writtenAccount
      else s.trie addr
    stateObjects := fun addr =>
      if addr ∈ s.stateObjectsPending then (s.stateObjects addr).map StateObject.updateLive
      else s.stateObjects addr
    stateObjectsPending := [] }

def intermediateRoot [HashFns] (s : StateDB) (deleteEmptyObjects : Bool) :
    Option (Root × StateDB) :=
  let s := s.finalise deleteEmptyObjects
  if s.stateObjectsPending.any s.unencodable then none
  else
    let s := s.writeObjects
    some (s.trie, s)

/-- The loop of `Commit`. -/
def commitObjects (s : StateDB) : StateDB :=
  { s with
    stateObjects := fun addr =>
      if addr ∈ s.stateObjectsDirty then (s.stateObjects addr).map StateObject.commitLive
      else s.stateObjects addr
    stateObjectsDirty := [] }

def commit [HashFns] (s : StateDB) (deleteEmptyObjects : Bool) : Option (Root × StateDB) := do
  let (_, s) ← s.intermediateRoot deleteEmptyObjects
  if s.stateObjectsDirty.any fun addr => (s.stateObjects addr).isNone then none
  else
    let s := s.commitObjects
    some (s.trie, s)

def copy (s : StateDB) : Option StateDB :=
  if (s.stateObjectsPending ++ s.stateObjectsDirty).any fun addr => (s.stateObjects addr).isNone
  then none
  else some {
    trie := s.trie
    stateObjects := fun addr =>
      if addr ∈ s.journal.dirties ++ s.stateObjectsPending ++ s.stateObjectsDirty then
        (s.stateObjects addr).map StateObject.deepCopy
      else none
    stateObjectsPending := s.dirtyObjects ++ s.stateObjectsPending
    stateObjectsDirty := s.dirtyObjects ++ s.stateObjectsDirty
    refund := s.refund
    logs := s.logs
    logSize := s.logSize
    preimages := s.preimages }

/-! ## The calls of a client -/

section

variable [HashFns] [Database]

/-- The getters of an account, which load what they need. -/
def accountQuery (s : StateDB) (q : AccountQuery) : Answer × StateDB :=
  match q with
  | .exist addr =>
    let (so, s) := s.getStateObject addr
    (.bool so.isSome, s)
  | .empty addr =>
    match s.getStateObject addr with
    | (none, s) => (.bool true, s)
    | (some so, s) => (.bool so.empty, s)
  | .getBalance addr =>
    match s.getStateObject addr with
    | (none, s) => (.amount 0, s)
    | (some so, s) => (.amount so.data.balance, s)
  | .getNonce addr =>
    match s.getStateObject addr with
    | (none, s) => (.number 0, s)
    | (some so, s) => (.number so.data.nonce, s)
  | .getCode addr =>
    match s.getStateObject addr with
    | (none, s) => (.bytes [], s)
    | (some so, s) => (.bytes so.loadCode.1, s.setStateObject so.loadCode.2)
  | .getCodeHash addr =>
    match s.getStateObject addr with
    | (none, s) => (.bytes zeroHash, s)
    | (some so, s) => (.bytes so.data.codeHash, s)
  | .getState addr key =>
    match s.getStateObject addr with
    | (none, s) => (.bytes zeroHash, s)
    | (some so, s) => (.bytes (so.getState key).1, s.setStateObject (so.getState key).2)
  | .getCommittedState addr key =>
    match s.getStateObject addr with
    | (none, s) => (.bytes zeroHash, s)
    | (some so, s) =>
      (.bytes (so.getCommittedState key).1, s.setStateObject (so.getCommittedState key).2)
  | .hasSuicided addr =>
    match s.getStateObject addr with
    | (none, s) => (.bool false, s)
    | (some so, s) => (.bool so.suicided, s)

def query (s : StateDB) (q : Query) : Answer × StateDB :=
  match q with
  | .account q => s.accountQuery q
  | .getRefund => (.number s.refund, s)
  | .getLogs hash => (.logs (s.logs hash), s)
  | .getPreimage hash => (.preimage (s.preimages hash), s)

def accountOp (s : StateDB) (op : AccountOp) : Answer × StateDB :=
  match op with
  | .setBalance addr amount => (.none, s.setBalance addr amount)
  | .addBalance addr amount => (.none, s.addBalance addr amount)
  | .subBalance addr amount => (.none, s.subBalance addr amount)
  | .setNonce addr nonce => (.none, s.setNonce addr nonce)
  | .setCode addr code => (.none, s.setCode addr code)
  | .setState addr key value => (.none, s.setState addr key value)
  | .createAccount addr => (.none, s.createAccount addr)
  | .suicide addr =>
    let (b, s) := s.suicide addr
    (.bool b, s)

def op (s : StateDB) (op : Op) : Option (Answer × StateDB) :=
  match op with
  | .query q => some (s.query q)
  | .account op => some (s.accountOp op)
  | .addLog log => some (.none, s.addLog log)
  | .addRefund gas => some (.none, s.addRefund gas)
  | .subRefund gas => (s.subRefund gas).map (.none, ·)
  | .addPreimage hash preimage => some (.none, s.addPreimage hash preimage)

def call (s : StateDB) (c : Call) : Option (Answer × StateDB) :=
  match c with
  | .op op => s.op op
  | .snapshot => some (.none, s.snapshot.2)
  | .revertToSnapshot revid => (s.revertToSnapshot revid).map (.none, ·)

/-- The calls of a transaction, with their answers. -/
def calls (s : StateDB) : List Call → Option (List Answer × StateDB)
  | [] => some ([], s)
  | c :: cs => do
    let (answer, s) ← s.call c
    let (answers, s) ← s.calls cs
    some (answer :: answers, s)

end

end StateDB

/-- The snapshots of a client are counted from `base`. -/
def Call.shift (base : Nat) : Call → Call
  | .op o => .op o
  | .snapshot => .snapshot
  | .revertToSnapshot n => .revertToSnapshot (base + n)

/-- A client of a state: it names its own snapshots by their number, the first of which has the
identifier `base`. -/
structure Session where
  base : Nat
  state : StateDB

namespace Session

variable [HashFns] [Database]

def action (x : Session) (a : Action) : Option (Answer × Session) :=
  match a with
  | .call c =>
    (x.state.call (c.shift x.base)).map fun (answer, s) => (answer, { x with state := s })
  | .prepare thash bhash ti => some (.none, { x with state := x.state.prepare thash bhash ti })
  | .finalise b => some (.none, { x with state := x.state.finalise b })
  | .intermediateRoot b =>
    (x.state.intermediateRoot b).map fun (root, s) => (.root root, { x with state := s })
  | .commit b => (x.state.commit b).map fun (root, s) => (.root root, { x with state := s })
  | .copy => x.state.copy.map fun s => (.none, ⟨0, s⟩)

/-- The actions of a client, with their answers. -/
def actions (x : Session) : List Action → Option (List Answer × Session)
  | [] => some ([], x)
  | a :: as => do
    let (answer, x) ← x.action a
    let (answers, x) ← x.actions as
    some (answer :: answers, x)

end Session

end GethComments.State
