import GethComments.Types.Rlp
import Mathlib.Logic.Function.Basic

/-!
# State objects

An account that is being modified (`state_object.go`): the account as the state trie holds it, and
three layers of storage slots over its storage trie. The storage trie is given by its contents, and
a root by the contents it commits to.

* `StateObject.WF`: the cached slots agree with the trie, and a slot is read before it is written;
* `StateObject.view`: what an object says about its account, whatever it has cached;
* `view_getState`, `view_getCommittedState`, `view_loadCode`: reading only fills caches;
* `view_updateRoot`, `root_updateRoot`: writing the slots out changes nothing that is read, and
  the new root is the contents that were read before.
-/

namespace GethComments.State

open Function Option

/-- `common.Hash{}`. -/
def zeroHash : Hash := List.replicate 32 0

/-- The contents of a storage trie: a slot that is not in the trie holds the zero hash. -/
abbrev Slots := Hash → Hash

namespace Slots

def tryUpdate (tr : Slots) (key value : Hash) : Slots := update tr key value

def tryDelete (tr : Slots) (key : Hash) : Slots := update tr key zeroHash

end Slots

def emptyRoot : Slots := fun _ => zeroHash

/-- The part of the state database that is not in the tries: the code of every code hash. -/
class Database where
  contractCode : Hash → Bytes

/-- A database to run the model with: every code is its own hash. -/
abbrev Database.plain : Database := ⟨id⟩

def emptyCodeHash [HashFns] : Hash := HashFns.keccak256 []

/-- The code that an account with this code hash has. -/
def codeAt [HashFns] [Database] (codeHash : Hash) : Bytes :=
  if codeHash = emptyCodeHash then [] else Database.contractCode codeHash

structure Account where
  nonce : UInt64
  balance : Int
  root : Slots
  codeHash : Hash

/-- `Account{}` after `newObject` has filled in the empty root and the empty code. -/
def Account.new [HashFns] : Account := ⟨0, 0, emptyRoot, emptyCodeHash⟩

/-! ## Storage maps -/

/-- `Storage`: a map from slots to values, in which a newer entry hides an older one. -/
abbrev Storage := List (Hash × Hash)

namespace Storage

def get (s : Storage) (key : Hash) : Option Hash := s.lookup key

def set (s : Storage) (key value : Hash) : Storage := (key, value) :: s

@[simp] theorem get_nil (key : Hash) : get [] key = none := rfl

theorem get_cons (s : Storage) (kv : Hash × Hash) (k : Hash) :
    get (kv :: s) k = if k = kv.1 then some kv.2 else s.get k := by
  obtain ⟨a, b⟩ := kv
  rw [get, List.lookup_cons]
  by_cases h : k = a
  · simp [h]
  · have hne : (k == a) = false := beq_false_of_ne h
    simp [h, hne, get]

theorem get_set (s : Storage) (key value k : Hash) :
    (s.set key value).get k = if k = key then some value else s.get k :=
  get_cons s (key, value) k

end Storage

/-! ## Objects -/

structure StateObject where
  address : Address
  data : Account
  /-- The storage trie, once it has been opened. -/
  trie : Option Slots := none
  /-- The code, once it has been loaded; `nil` and the empty code are alike. -/
  code : Bytes := []
  originStorage : Storage := []
  pendingStorage : Storage := []
  dirtyStorage : Storage := []
  dirtyCode : Bool := false
  suicided : Bool := false
  deleted : Bool := false

namespace StateObject

def newObject (address : Address) (data : Account) : StateObject := { address, data }

def empty [HashFns] (s : StateObject) : Bool :=
  s.data.nonce == 0 && s.data.balance == 0 && s.data.codeHash == emptyCodeHash

def getTrie (s : StateObject) : Slots × StateObject :=
  match s.trie with
  | some tr => (tr, s)
  | none => (s.data.root, { s with trie := some s.data.root })

def getCommittedState (s : StateObject) (key : Hash) : Hash × StateObject :=
  match s.pendingStorage.get key with
  | some value => (value, s)
  | none =>
    match s.originStorage.get key with
    | some value => (value, s)
    | none =>
      let (tr, s) := s.getTrie
      (tr key, { s with originStorage := s.originStorage.set key (tr key) })

def getState (s : StateObject) (key : Hash) : Hash × StateObject :=
  match s.dirtyStorage.get key with
  | some value => (value, s)
  | none => s.getCommittedState key

def setState (s : StateObject) (key value : Hash) : StateObject :=
  { s with dirtyStorage := s.dirtyStorage.set key value }

def setBalance (s : StateObject) (amount : Int) : StateObject :=
  { s with data := { s.data with balance := amount } }

def setNonce (s : StateObject) (nonce : UInt64) : StateObject :=
  { s with data := { s.data with nonce := nonce } }

def setCode (s : StateObject) (codeHash : Hash) (code : Bytes) : StateObject :=
  { s with code, data := { s.data with codeHash }, dirtyCode := true }

def markSuicided (s : StateObject) : StateObject := { s with suicided := true }

/-- `Code`. -/
def loadCode [HashFns] [Database] (s : StateObject) : Bytes × StateObject :=
  if s.code ≠ [] then (s.code, s)
  else if s.data.codeHash = emptyCodeHash then ([], s)
  else
    let code := Database.contractCode s.data.codeHash
    (code, { s with code })

/-- `finalise`: every dirty slot becomes a pending one. -/
def finalise (s : StateObject) : StateObject :=
  { s with
    pendingStorage := s.dirtyStorage.foldr (fun kv pending => pending.set kv.1 kv.2)
      s.pendingStorage
    dirtyStorage := [] }

/-- One round of the loop over the pending slots. -/
def writeSlot (kv : Hash × Hash) (s : StateObject) : StateObject :=
  let (key, value) := kv
  if value = (s.originStorage.get key).getD zeroHash then s
  else
    let (tr, s) := s.getTrie
    let s := { s with originStorage := s.originStorage.set key value }
    if value = zeroHash then { s with trie := some (tr.tryDelete key) }
    else { s with trie := some (tr.tryUpdate key value) }

def writeSlots (s : StateObject) : StateObject :=
  let s := s.getTrie.2
  { s.pendingStorage.foldr writeSlot s with pendingStorage := [] }

def updateTrie (s : StateObject) : StateObject :=
  let s := s.finalise
  if s.pendingStorage.isEmpty then s else s.writeSlots

/-- The root of the storage trie, if it is open, goes into the account. -/
def setRoot (s : StateObject) : StateObject :=
  match s.trie with
  | none => s
  | some tr => { s with data := { s.data with root := tr } }

def updateRoot (s : StateObject) : StateObject := s.updateTrie.setRoot

/-- `CommitTrie`: the root that is returned by `Commit` is the one `Hash` returns. -/
def commitTrie (s : StateObject) : StateObject := s.updateTrie.setRoot

def deepCopy (s : StateObject) : StateObject :=
  let cpy := newObject s.address s.data
  let cpy := match s.trie with
    | some tr => { cpy with trie := some tr }
    | none => cpy
  { cpy with
    code := s.code
    dirtyStorage := s.dirtyStorage
    originStorage := s.originStorage
    pendingStorage := s.pendingStorage
    suicided := s.suicided
    dirtyCode := s.dirtyCode
    deleted := s.deleted }

theorem deepCopy_eq (s : StateObject) : s.deepCopy = s := by
  unfold deepCopy newObject
  cases h : s.trie <;> simp [← h]

end StateObject

/-! ## What an object says -/

/-- What can be read of an account. -/
structure View where
  nonce : UInt64
  balance : Int
  codeHash : Hash
  code : Bytes
  suicided : Bool
  deleted : Bool
  state : Slots
  committed : Slots

namespace View

variable [HashFns]

def empty (v : View) : Bool := v.nonce == 0 && v.balance == 0 && v.codeHash == emptyCodeHash

/-- The account as it is written to the state trie. -/
def account (v : View) : Account := ⟨v.nonce, v.balance, v.state, v.codeHash⟩

/-- The account of the state trie as it is read. -/
def ofAccount [Database] (data : Account) : View :=
  ⟨data.nonce, data.balance, data.codeHash, codeAt data.codeHash, false, false,
    data.root, data.root⟩

/-- The slots become committed ones. -/
def settle (v : View) : View := if v.deleted then v else { v with committed := v.state }

def finalise (deleteEmptyObjects : Bool) (v : View) : View :=
  if v.suicided || (deleteEmptyObjects && v.empty) then { v with deleted := true }
  else { v with committed := v.state }

end View

namespace StateObject

def committed (s : StateObject) : Slots := fun key =>
  (s.pendingStorage.get key).getD ((s.originStorage.get key).getD (s.data.root key))

def state (s : StateObject) : Slots := fun key =>
  (s.dirtyStorage.get key).getD (s.committed key)

def view [HashFns] [Database] (s : StateObject) : View where
  nonce := s.data.nonce
  balance := s.data.balance
  codeHash := s.data.codeHash
  code := if s.code ≠ [] then s.code else codeAt s.data.codeHash
  suicided := s.suicided
  deleted := s.deleted
  state := s.state
  committed := s.committed

/-- The object after it has read a slot from the storage trie. -/
def load (s : StateObject) (key : Hash) : StateObject :=
  { s with
    trie := some s.data.root
    originStorage := s.originStorage.set key (s.data.root key) }

def Loaded (s : StateObject) (key : Hash) : Prop := s.originStorage.get key ≠ none

structure WF (s : StateObject) : Prop where
  trie : ∀ tr, s.trie = some tr → tr = s.data.root
  origin : ∀ key value, s.originStorage.get key = some value → s.data.root key = value
  pending : ∀ key, s.pendingStorage.get key ≠ none → s.Loaded key
  dirty : ∀ key, s.dirtyStorage.get key ≠ none → s.Loaded key

variable {s : StateObject}

theorem wf_newObject (address : Address) (data : Account) : (newObject address data).WF := by
  constructor <;> simp [newObject]

theorem view_newObject [HashFns] [Database] (address : Address) (data : Account) :
    (newObject address data).view = View.ofAccount data := rfl

def Agrees (origin : Storage) (tr : Slots) : Prop :=
  ∀ key value, origin.get key = some value → tr key = value

variable {tr : Slots}

theorem Agrees.getD {origin : Storage} (h : Agrees origin tr) (key : Hash) :
    (origin.get key).getD (tr key) = tr key := by
  cases ho : origin.get key with
  | none => rfl
  | some value => exact (h key value ho).symm

theorem Agrees.set {origin : Storage} (h : Agrees origin tr) (key value : Hash) :
    Agrees (origin.set key value) (update tr key value) := by
  intro k v hv
  rw [Storage.get_set] at hv
  rw [update_apply]
  split at hv
  · rw [if_pos ‹_›]
    exact some.inj hv
  · rw [if_neg ‹_›]
    exact h k v hv

theorem loaded_set {key : Hash} (h : s.Loaded key) (k value : Hash) :
    (s.originStorage.set k value).get key ≠ none := by
  rw [Storage.get_set]
  split
  · simp
  · exact h

theorem committed_eq (h : s.WF) (key : Hash) :
    s.committed key = (s.pendingStorage.get key).getD (s.data.root key) := by
  rw [committed, Agrees.getD h.origin]

/-! ### Reading -/

theorem getTrie_fst (h : s.WF) : s.getTrie.1 = s.data.root := by
  unfold getTrie
  cases htr : s.trie with
  | none => rfl
  | some tr => exact h.trie tr htr

theorem getTrie_snd (h : s.WF) : s.getTrie.2 = { s with trie := some s.data.root } := by
  unfold getTrie
  cases htr : s.trie with
  | none => rfl
  | some tr =>
    rw [← h.trie tr htr]
    cases s
    simp_all

/-- Reading a slot gives its value, and caches what the storage trie has. -/
theorem getCommittedState_eq (h : s.WF) (key : Hash) :
    (s.getCommittedState key).1 = s.committed key ∧
      ((s.getCommittedState key).2 = s ∧ s.Loaded key ∨
        (s.getCommittedState key).2 = s.load key) := by
  unfold getCommittedState committed
  cases hp : s.pendingStorage.get key with
  | some value => exact ⟨rfl, .inl ⟨rfl, h.pending key (by simp [hp])⟩⟩
  | none =>
    cases ho : s.originStorage.get key with
    | some value => exact ⟨rfl, .inl ⟨rfl, by simp [Loaded, ho]⟩⟩
    | none =>
      refine ⟨getTrie_fst h ▸ rfl, .inr ?_⟩
      simp only [getTrie_fst h, getTrie_snd h, load]

/-- An object that has read more of its account than before. -/
structure Reads [HashFns] [Database] (s s' : StateObject) : Prop where
  wf : s'.WF
  view : s'.view = s.view
  address : s'.address = s.address
  loaded : ∀ key, s.Loaded key → s'.Loaded key

theorem Reads.refl [HashFns] [Database] (h : s.WF) : Reads s s := ⟨h, rfl, rfl, fun _ => id⟩

section

variable (h : s.WF) (key : Hash)
include h key

theorem reads_load [HashFns] [Database] : Reads s (s.load key) := by
  have hloaded : ∀ k, s.Loaded k → (s.load key).Loaded k := fun k hk => loaded_set hk key _
  have hagrees : Agrees (s.load key).originStorage s.data.root := by
    simpa [load] using Agrees.set h.origin key (s.data.root key)
  have hw : (s.load key).WF := by
    refine ⟨?_, hagrees, fun k hk => hloaded k (h.pending k hk),
      fun k hk => hloaded k (h.dirty k hk)⟩
    rintro tr ⟨⟩
    rfl
  have hcommitted : (s.load key).committed = s.committed := by
    funext k
    rw [committed_eq hw, committed_eq h]
    rfl
  have hstate : (s.load key).state = s.state := by
    funext k
    rw [state, hcommitted]
    rfl
  refine ⟨hw, ?_, rfl, hloaded⟩
  rw [view, hstate, hcommitted]
  rfl

theorem reads_getCommittedState [HashFns] [Database] : Reads s (s.getCommittedState key).2 := by
  obtain ⟨_, ⟨heq, _⟩ | heq⟩ := getCommittedState_eq h key
  · rw [heq]
    exact .refl h
  · rw [heq]
    exact reads_load h key

theorem loaded_getCommittedState : (s.getCommittedState key).2.Loaded key := by
  obtain ⟨_, ⟨heq, hl⟩ | heq⟩ := getCommittedState_eq h key
  · rwa [heq]
  · rw [heq]
    simp [Loaded, load, Storage.get_set]

theorem getState_fst : (s.getState key).1 = s.state key := by
  unfold getState state
  cases hd : s.dirtyStorage.get key with
  | some value => rfl
  | none => exact (getCommittedState_eq h key).1

theorem reads_getState [HashFns] [Database] : Reads s (s.getState key).2 := by
  unfold getState
  cases hd : s.dirtyStorage.get key with
  | some value => exact .refl h
  | none => exact reads_getCommittedState h key

theorem loaded_getState : (s.getState key).2.Loaded key := by
  unfold getState
  cases hd : s.dirtyStorage.get key with
  | some value => exact h.dirty key (by simp [hd])
  | none => exact loaded_getCommittedState h key

end

theorem loadCode_fst [HashFns] [Database] (s : StateObject) : s.loadCode.1 = s.view.code := by
  simp only [loadCode, view, codeAt]
  split
  · rfl
  · split <;> rfl

theorem reads_loadCode [HashFns] [Database] (h : s.WF) : Reads s s.loadCode.2 := by
  unfold loadCode
  split
  · exact .refl h
  · split
    · exact .refl h
    · rename_i hc hh
      refine ⟨⟨h.trie, h.origin, h.pending, h.dirty⟩, ?_, rfl, fun _ => id⟩
      simp only [view, codeAt, if_neg hc, if_neg hh]
      split <;> rfl

/-! ### Writing -/

theorem WF.setBalance (h : s.WF) (amount : Int) : (s.setBalance amount).WF :=
  ⟨h.trie, h.origin, h.pending, h.dirty⟩

theorem WF.setNonce (h : s.WF) (nonce : UInt64) : (s.setNonce nonce).WF :=
  ⟨h.trie, h.origin, h.pending, h.dirty⟩

theorem WF.setCode (h : s.WF) (codeHash : Hash) (code : Bytes) : (s.setCode codeHash code).WF :=
  ⟨h.trie, h.origin, h.pending, h.dirty⟩

theorem WF.setState (h : s.WF) {key : Hash} (hk : s.Loaded key) (value : Hash) :
    (s.setState key value).WF := by
  refine ⟨h.trie, h.origin, h.pending, fun k hd => ?_⟩
  rw [StateObject.setState, Storage.get_set] at hd
  split at hd
  · subst k
    exact hk
  · exact h.dirty k hd

/-! ### The end of a transaction -/

theorem get_foldr_set (dirty pending : Storage) (key : Hash) :
    (dirty.foldr (fun kv (p : Storage) => p.set kv.1 kv.2) pending).get key =
      (dirty.get key).or (pending.get key) := by
  induction dirty with
  | nil => rfl
  | cons kv dirty ih =>
    rw [List.foldr_cons, Storage.get_set, Storage.get_cons, ih]
    split <;> rfl

theorem committed_finalise (s : StateObject) : s.finalise.committed = s.state := by
  funext key
  simp only [committed, finalise, get_foldr_set, state]
  cases s.dirtyStorage.get key <;> rfl

theorem state_finalise (s : StateObject) : s.finalise.state = s.state := by
  funext key
  rw [state, committed_finalise]
  rfl

theorem WF.finalise (h : s.WF) : s.finalise.WF := by
  refine ⟨h.trie, h.origin, fun key hp => ?_, by simp [StateObject.finalise]⟩
  rw [StateObject.finalise, get_foldr_set] at hp
  cases hd : s.dirtyStorage.get key with
  | some value => exact h.dirty key (by simp [hd])
  | none =>
    rw [hd, none_or] at hp
    exact h.pending key hp

/-! ### Writing the slots out -/

theorem writeSlot_eq (ht : s.trie = some tr) (h : Agrees s.originStorage tr) (kv : Hash × Hash)
    (hl : s.Loaded kv.1) :
    ∃ origin, Agrees origin (update tr kv.1 kv.2) ∧
      (∀ key, s.Loaded key → origin.get key ≠ none) ∧
      writeSlot kv s =
        { s with trie := some (update tr kv.1 kv.2), originStorage := origin } := by
  obtain ⟨key, value⟩ := kv
  obtain ⟨old, hold⟩ := ne_none_iff_exists'.mp hl
  have hget : s.getTrie = (tr, s) := by rw [getTrie, ht]
  simp only [writeSlot, hold, hget, getD_some]
  split
  · rename_i heq
    rw [heq, ← h key old hold, update_eq_self, ← ht]
    exact ⟨s.originStorage, h, fun _ => id, rfl⟩
  · refine ⟨_, h.set key value, fun _ hk => loaded_set hk key value, ?_⟩
    split
    · rename_i hz
      rw [hz]
      rfl
    · rfl

theorem foldr_writeSlot (pending : Storage) (ht : s.trie = some tr) (h : Agrees s.originStorage tr)
    (hl : ∀ key, Storage.get pending key ≠ none → s.Loaded key) :
    ∃ origin, Agrees origin (fun key => (Storage.get pending key).getD (tr key)) ∧
      (∀ key, s.Loaded key → origin.get key ≠ none) ∧
      pending.foldr writeSlot s = { s with
          trie := some fun key => (Storage.get pending key).getD (tr key)
          originStorage := origin } := by
  induction pending with
  | nil =>
    refine ⟨s.originStorage, h, fun _ => id, ?_⟩
    rw [List.foldr_nil]
    simp only [Storage.get_nil, getD_none, ← ht]
  | cons kv pending ih =>
    have hmem : ∀ key, Storage.get pending key ≠ none → Storage.get (kv :: pending) key ≠ none := by
      intro key hk
      rw [Storage.get_cons]
      split
      · simp
      · exact hk
    obtain ⟨origin, hagrees, hloaded, heq⟩ := ih fun key hk => hl key (hmem key hk)
    obtain ⟨origin', hagrees', hloaded', heq'⟩ := writeSlot_eq (congrArg trie heq)
      (congrArg originStorage heq ▸ hagrees) kv
      (heq ▸ hloaded kv.1 (hl kv.1 (by simp [Storage.get_cons])))
    have hslots : (fun key => (Storage.get (kv :: pending) key).getD (tr key)) =
        update (fun key => (Storage.get pending key).getD (tr key)) kv.1 kv.2 := by
      funext key
      rw [Storage.get_cons, update_apply]
      split <;> rfl
    rw [hslots, List.foldr_cons, heq']
    exact ⟨origin', hagrees', fun key hk => hloaded' key (heq ▸ hloaded key hk), by rw [heq]⟩

/-! ### Views -/

variable [HashFns] [Database]

section

variable (s)

@[simp] theorem view_setBalance (amount : Int) :
    (s.setBalance amount).view = { s.view with balance := amount } := rfl

theorem view_setCode {codeHash : Hash} {code : Bytes} (h : code = [] → codeAt codeHash = []) :
    (s.setCode codeHash code).view = { s.view with codeHash, code } := by
  have hcode : (if code ≠ [] then code else codeAt codeHash) = code := by
    split
    · rfl
    · rename_i hc
      rw [not_not] at hc
      rw [hc, h hc]
  rw [view, setCode]
  dsimp only
  rw [hcode]
  rfl

@[simp] theorem view_setState (key value : Hash) : (s.setState key value).view =
      { s.view with state := update s.view.state key value } := by
  have hstate : (s.setState key value).state = update s.state key value := by
    funext k
    simp only [state, setState, Storage.get_set, update_apply]
    split <;> rfl
  rw [view, hstate]
  rfl

end

theorem view_finalise (s : StateObject) :
    s.finalise.view = { s.view with committed := s.view.state } := by
  rw [view, state_finalise, committed_finalise]
  rfl

/-! ### What has been written out -/

/-- An object whose slots have been written out: its root is what was read before. -/
structure WrittenOut (s s' : StateObject) : Prop where
  wf : s'.WF
  view : s'.view = { s.view with committed := s.view.state }
  address : s'.address = s.address
  root : s'.data.root = s.view.state
  loaded : ∀ key, s.Loaded key → s'.Loaded key

theorem writtenOut_setRoot (h : s.WF) (hp : s.pendingStorage = []) (hd : s.dirtyStorage = []) :
    WrittenOut s s.setRoot := by
  have hroot : s.setRoot = s := by
    unfold setRoot
    split
    · rfl
    · rename_i tr htr
      rw [h.trie tr htr]
  have hcommitted : s.committed = s.data.root := by
    funext key
    rw [committed_eq h, hp, Storage.get_nil, getD_none]
  have hstate : s.state = s.committed := by
    funext key
    rw [state, hd, Storage.get_nil, getD_none]
  rw [hroot]
  refine ⟨h, ?_, rfl, ?_, fun _ => id⟩
  · simp only [view, hstate]
  · simp only [view, hstate, hcommitted]

theorem writtenOut_writeSlots (h : s.WF) (hd : s.dirtyStorage = []) :
    WrittenOut s s.writeSlots.setRoot := by
  obtain ⟨origin, hagrees, hloaded, heq⟩ := foldr_writeSlot
    (s := { s with trie := some s.data.root }) s.pendingStorage rfl h.origin h.pending
  have hslots : (fun key => (s.pendingStorage.get key).getD (s.data.root key)) = s.state := by
    funext key
    rw [state, hd, Storage.get_nil, getD_none, committed_eq h]
  rw [hslots] at hagrees heq
  have hout : s.writeSlots.setRoot = { s with
      trie := some s.state, originStorage := origin, pendingStorage := []
      data := { s.data with root := s.state } } := by
    rw [writeSlots, getTrie_snd h]
    dsimp only
    rw [heq, setRoot]
  have hc : s.writeSlots.setRoot.committed = s.state := by
    rw [hout]
    exact funext hagrees.getD
  have hs : s.writeSlots.setRoot.state = s.state := by
    funext key
    rw [state, hc, hout]
    simp [hd]
  refine ⟨?_, ?_, by rw [hout], by rw [hout]; rfl, hout ▸ hloaded⟩
  · rw [hout]
    exact ⟨fun tr htr => (some.inj htr).symm, hagrees, by simp, by simp [hd]⟩
  · rw [view, hs, hc, hout]
    rfl

theorem writtenOut_updateRoot (h : s.WF) : WrittenOut s s.updateRoot := by
  have hf := h.finalise
  have hout : WrittenOut s.finalise s.updateRoot := by
    unfold updateRoot updateTrie
    dsimp only
    split
    · exact writtenOut_setRoot hf (List.isEmpty_iff.mp ‹_›) rfl
    · exact writtenOut_writeSlots hf rfl
  have hview := hout.view
  have hroot := hout.root
  rw [view_finalise] at hview hroot
  exact ⟨hout.wf, hview, hout.address, hroot, hout.loaded⟩

theorem writtenOut_commitTrie (h : s.WF) : WrittenOut s s.commitTrie := writtenOut_updateRoot h

end StateObject

end GethComments.State
