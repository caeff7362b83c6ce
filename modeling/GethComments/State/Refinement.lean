import GethComments.State.Ledger

/-!
# The state database keeps a ledger

Every function of the state database does to its ledger what the function of the ledger does, and
keeps the invariant of its caches.

* `StateDB.WF`: cached objects are well formed, what waits to be written is cached, and the journal
  can be undone;
* `query_eq`, `does_accountOp`: getters and setters;
* `op_cases`: all operations inside a transaction.
-/

namespace GethComments.State

open Function StateObject Option Ledger

/-! ## Objects -/

namespace StateDB

/-- The object of an address: the cached one, or what the state trie has. -/
def peek (s : StateDB) (addr : Address) : Option StateObject :=
  match s.stateObjects addr with
  | some obj => some obj
  | none => (s.trie addr).map (newObject addr)

/-- The object of an address, unless it has been deleted. -/
def liveObject (s : StateDB) (addr : Address) : Option StateObject :=
  (s.peek addr).filter (!·.deleted)

/-- The slots of every account that have been read. -/
def Known (s : StateDB) (addr : Address) (key : Hash) : Prop :=
  ∃ obj, s.peek addr = some obj ∧ obj.Loaded key

variable {s : StateDB} {addr : Address} {obj obj' : StateObject}

theorem peek_of_cached (h : s.stateObjects addr = some obj) : s.peek addr = some obj := by
  rw [peek, h]

theorem peek_setStateObject (s : StateDB) (obj : StateObject) (addr : Address) :
    (s.setStateObject obj).peek addr = if addr = obj.address then some obj else s.peek addr := by
  unfold peek setStateObject
  by_cases h : addr = obj.address
  · simp [h]
  · simp [h, update_of_ne]

theorem liveObject_eq_some (h : s.liveObject addr = some obj) :
    s.peek addr = some obj ∧ obj.deleted = false := by
  simpa [liveObject, filter_eq_some_iff] using h

theorem setStateObject_self (h : s.stateObjects obj.address = some obj) :
    s.setStateObject obj = s := by
  rw [setStateObject, ← h, update_eq_self]

theorem known_setStateObject (hp : s.peek addr = some obj) (ha : obj'.address = addr)
    (hl : ∀ key, obj.Loaded key → obj'.Loaded key) (a : Address) (key : Hash)
    (h : s.Known a key) : (s.setStateObject obj').Known a key := by
  obtain ⟨o, ho, hk⟩ := h
  by_cases hne : a = addr
  · subst hne
    rw [hp] at ho
    cases ho
    exact ⟨obj', by rw [peek_setStateObject, if_pos ha.symm], hl key hk⟩
  · exact ⟨o, by rw [peek_setStateObject, if_neg (ha ▸ hne), ho], hk⟩

theorem stateObjects_setStateObject (s : StateDB) (obj : StateObject) (addr : Address) :
    (s.setStateObject obj).stateObjects addr =
      if addr = obj.address then some obj else s.stateObjects addr :=
  update_apply ..

theorem cached_setStateObject (s : StateDB) (obj : StateObject)
    (h : s.stateObjects addr ≠ none) : (s.setStateObject obj).stateObjects addr ≠ none := by
  rw [stateObjects_setStateObject]
  split
  · simp
  · exact h

theorem objects_setStateObject
    (h : ∀ addr obj, s.stateObjects addr = some obj → obj.address = addr ∧ obj.WF) (hw : obj.WF)
    (addr : Address) (o : StateObject)
    (ho : (s.setStateObject obj).stateObjects addr = some o) : o.address = addr ∧ o.WF := by
  rw [stateObjects_setStateObject] at ho
  split at ho
  · cases ho
    exact ⟨‹addr = _›.symm, hw⟩
  · exact h addr o ho

theorem length_dirtied_le (h : ∃ n, s.journal.dirties.Perm
      (s.journal.entries.filterMap JournalEntry.dirtied ++ List.replicate n ripemd)) :
    (s.journal.entries.filterMap JournalEntry.dirtied).length ≤ s.journal.dirties.length := by
  obtain ⟨n, hn⟩ := h
  rw [hn.length_eq, List.length_append]
  exact Nat.le_add_right _ _

end StateDB

/-- Every storage entry that is undone finds its slot read, in the object that is then in place. -/
def Slotted (known : Address → Hash → Prop) : List (JournalEntry StateObject) → Prop
  | [] => True
  | .storageChange addr key _ :: entries => known addr key ∧ Slotted known entries
  | .createObjectChange addr :: entries =>
    Slotted (update known addr fun _ => False) entries
  | .resetObjectChange prev :: entries =>
    Slotted (update known prev.address prev.Loaded) entries
  | _ :: entries => Slotted known entries

theorem Slotted.mono {known known' : Address → Hash → Prop}
    {entries : List (JournalEntry StateObject)} (hk : ∀ addr key, known addr key → known' addr key)
    (h : Slotted known entries) : Slotted known' entries := by
  induction entries generalizing known known' with
  | nil => trivial
  | cons e entries ih =>
    have hupdate : ∀ (addr : Address) (p : Hash → Prop) a k, update known addr p a k →
        update known' addr p a k := by
      intro addr p a k
      simp only [update_apply]
      split
      · exact id
      · exact hk a k
    cases e with
    | storageChange addr key prevalue => exact ⟨hk _ _ h.1, ih hk h.2⟩
    | createObjectChange addr => exact ih (hupdate _ _) h
    | resetObjectChange prev => exact ih (hupdate _ _) h
    | _ => exact ih hk h

/-- Entries that say nothing of slots or objects. -/
def Plain : JournalEntry StateObject → Prop
  | .storageChange .. | .createObjectChange _ | .resetObjectChange _ => False
  | _ => True

theorem Slotted.plain {known : Address → Hash → Prop} {e : JournalEntry StateObject}
    {entries : List (JournalEntry StateObject)} (he : Plain e) (h : Slotted known entries) :
    Slotted known (e :: entries) := by
  cases e <;> first | exact h | exact he.elim

/-! ## The ledger of a state -/

variable [HashFns] [Database]

/-- The entry of the ledger for an entry of the journal. -/
def JournalEntry.abs : JournalEntry StateObject → Entry
  | createObjectChange account => .createObjectChange account
  | resetObjectChange prev => .resetObjectChange (prev.address, prev.view)
  | suicideChange account prev prevbalance => .suicideChange account prev prevbalance
  | balanceChange account prev => .balanceChange account prev
  | nonceChange account prev => .nonceChange account prev
  | storageChange account key prevalue => .storageChange account key prevalue
  | codeChange account prevcode prevhash => .codeChange account prevcode prevhash
  | refundChange prev => .refundChange prev
  | addLogChange txhash => .addLogChange txhash
  | addPreimageChange hash => .addPreimageChange hash
  | touchChange account => .touchChange account

theorem dirtied_abs (e : JournalEntry StateObject) : e.abs.dirtied = e.dirtied := by
  cases e <;> rfl

/-- What an entry needs to be undone. -/
def EntryOk (trie : Root) (pending : List Address) : JournalEntry StateObject → Prop
  | .createObjectChange addr => trie addr = none ∧ addr ∉ pending
  | .resetObjectChange prev => prev.WF
  | .codeChange _ prevcode prevhash => prevcode = [] → codeAt prevhash = []
  | _ => True

namespace StateDB

def ledger (s : StateDB) : Ledger where
  trie := s.trie
  objects addr := (s.peek addr).map view
  pending := {addr | addr ∈ s.stateObjectsPending}
  dirty := {addr | addr ∈ s.stateObjectsDirty}
  refund := s.refund
  thash := s.thash
  bhash := s.bhash
  txIndex := s.txIndex
  logs := s.logs
  logSize := s.logSize
  preimages := s.preimages
  entries := s.journal.entries.map JournalEntry.abs
  marks := s.journal.dirties.length - (s.journal.entries.filterMap JournalEntry.dirtied).length

/-! ## The invariant -/

structure WF (s : StateDB) : Prop where
  objects : ∀ addr obj, s.stateObjects addr = some obj → obj.address = addr ∧ obj.WF
  pending : ∀ addr ∈ s.stateObjectsPending, s.stateObjects addr ≠ none
  dirty : ∀ addr ∈ s.stateObjectsDirty, s.stateObjects addr ≠ none
  entries : ∀ e ∈ s.journal.entries, EntryOk s.trie s.stateObjectsPending e
  slots : Slotted s.Known s.journal.entries
  dirties : ∃ n, s.journal.dirties.Perm
    (s.journal.entries.filterMap JournalEntry.dirtied ++ List.replicate n ripemd)
  cached : ∀ addr ∈ s.journal.dirties, s.stateObjects addr ≠ none ∨ s.trie addr = none

variable {s : StateDB} {addr : Address} {obj obj' : StateObject}

theorem WF.peek (h : s.WF) (hp : s.peek addr = some obj) : obj.address = addr ∧ obj.WF := by
  unfold StateDB.peek at hp
  split at hp
  · cases hp
    exact h.objects addr _ ‹_›
  · obtain ⟨data, -, rfl⟩ := map_eq_some_iff.mp hp
    exact ⟨rfl, wf_newObject addr data⟩

theorem wf_new (root : Root) : (new root).WF := by constructor <;> simp [new, Slotted]

theorem WF.inv (h : s.WF) : s.ledger.Inv := by
  have hobj : ∀ addr, s.ledger.objects addr = none ↔
      s.stateObjects addr = none ∧ s.trie addr = none := by
    intro addr
    simp only [ledger, map_eq_none_iff, StateDB.peek]
    cases s.stateObjects addr <;> simp
  refine ⟨fun addr ho => ((hobj addr).mp ho).2, fun addr hp ho => ?_, fun addr hd ho => ?_⟩
  · exact h.pending addr hp ((hobj addr).mp ho).1
  · exact h.dirty addr hd ((hobj addr).mp ho).1

/-! ## Caching and changing an object -/

/-- What a function has done: the ledger that it leaves, with the invariant and the snapshots. -/
structure Does (s s' : StateDB) (l : Ledger) : Prop where
  wf : s'.WF
  ledger : s'.ledger = l
  revisions : s'.validRevisions = s.validRevisions
  nextRevision : s'.nextRevisionId = s.nextRevisionId

theorem Does.refl (h : s.WF) : Does s s s.ledger := ⟨h, rfl, rfl, rfl⟩

theorem Does.trans {s1 s2 : StateDB} {l1 l2 : Ledger} (h1 : Does s s1 l1) (h2 : Does s1 s2 l2) :
    Does s s2 l2 :=
  ⟨h2.wf, h2.ledger, h2.revisions.trans h1.revisions, h2.nextRevision.trans h1.nextRevision⟩

theorem ledger_setStateObject (s : StateDB) (obj : StateObject) :
    (s.setStateObject obj).ledger = s.ledger.put obj.address obj.view := by
  have hobjects : (s.setStateObject obj).ledger.objects =
      update s.ledger.objects obj.address (some obj.view) := by
    funext addr
    simp only [ledger, peek_setStateObject, update_apply]
    split <;> rfl
  exact Ledger.ext rfl hobjects rfl rfl rfl rfl rfl rfl rfl rfl rfl rfl rfl

theorem WF.setStateObject (h : s.WF)
    (hp : s.peek addr = some obj) (ha : obj'.address = addr) (hw : obj'.WF)
    (hl : ∀ key, obj.Loaded key → obj'.Loaded key) : (s.setStateObject obj').WF := by
  exact ⟨objects_setStateObject h.objects hw,
    fun a hm => cached_setStateObject s obj' (h.pending a hm),
    fun a hm => cached_setStateObject s obj' (h.dirty a hm), h.entries,
    h.slots.mono (known_setStateObject hp ha hl), h.dirties,
    fun a hm => (h.cached a hm).imp_left (cached_setStateObject s obj')⟩

theorem does_cache (h : s.WF) (hp : s.peek addr = some obj) (hr : obj.Reads obj') :
    Does s (s.setStateObject obj') s.ledger := by
  have ha : obj'.address = addr := hr.address.trans (h.peek hp).1
  refine ⟨h.setStateObject hp ha hr.wf hr.loaded, ?_, rfl, rfl⟩
  rw [ledger_setStateObject, hr.view, ha]
  exact put_of_objects (by simp [ledger, hp])

theorem ledger_append (s : StateDB) (e : JournalEntry StateObject) :
    (s.append e).ledger = s.ledger.record e.abs := by
  have hmarks : (s.append e).ledger.marks = s.ledger.marks := by
    simp only [ledger, append, Journal.append]
    cases hd : e.dirtied with
    | none => simp [hd]
    | some addr => simp [hd]
  exact Ledger.ext rfl rfl rfl rfl rfl rfl rfl rfl rfl rfl rfl rfl hmarks

theorem WF.append_setStateObject (h : s.WF) {e : JournalEntry StateObject}
    (hw : obj.WF) (hok : EntryOk s.trie s.stateObjectsPending e)
    (hd : ∀ addr, e.dirtied = some addr → addr = obj.address)
    (hs : Slotted (s.setStateObject obj).Known (e :: s.journal.entries)) :
    ((s.append e).setStateObject obj).WF := by
  refine ⟨objects_setStateObject h.objects hw,
    fun a hm => cached_setStateObject _ obj (h.pending a hm),
    fun a hm => cached_setStateObject _ obj (h.dirty a hm), ?_, hs, ?_, ?_⟩
  · exact List.forall_mem_cons.mpr ⟨hok, h.entries⟩
  · obtain ⟨n, hn⟩ := h.dirties
    refine ⟨n, ?_⟩
    simp only [StateDB.setStateObject, append, Journal.append]
    cases hd : e.dirtied with
    | none => simpa [hd] using hn
    | some addr => simpa [hd] using hn
  · intro a ha
    rcases List.mem_append.mp ha with ha | ha
    · have heq : a = obj.address := hd a (mem_toList.mp ha)
      subst heq
      exact .inl (by simp [stateObjects_setStateObject])
    · exact (h.cached a ha).imp_left (cached_setStateObject _ obj)

theorem does_change (h : s.WF) (e : JournalEntry StateObject)
    (obj' : StateObject) (hp : s.peek addr = some obj) (ha : obj'.address = addr) (hw : obj'.WF)
    (hl : ∀ key, obj.Loaded key → obj'.Loaded key) (hd : e.dirtied = some addr)
    (hplain : Plain e ∨ ∃ k v, e = .storageChange addr k v ∧ obj'.Loaded k)
    (hok : EntryOk s.trie s.stateObjectsPending e) :
    Does s ((s.append e).setStateObject obj') ((s.ledger.record e.abs).put addr obj'.view) := by
  have hmono : Slotted (s.setStateObject obj').Known s.journal.entries :=
    h.slots.mono (known_setStateObject hp ha hl)
  refine ⟨h.append_setStateObject hw hok (fun a hda => ?_) ?_, ?_, rfl, rfl⟩
  · rw [hd] at hda
    exact (some.inj hda).symm.trans ha.symm
  · rcases hplain with hplain | ⟨k, v, rfl, hk⟩
    · exact hmono.plain hplain
    · exact ⟨⟨obj', by rw [peek_setStateObject, if_pos ha.symm], hk⟩, hmono⟩
  · rw [ledger_setStateObject, ledger_append, ha]

/-! ## Getting an object -/

/-- The state after the object of an address has been loaded. -/
def cache (s : StateDB) (addr : Address) : StateDB :=
  match s.peek addr with
  | none => s
  | some obj => s.setStateObject obj

theorem getDeletedStateObject_eq (h : s.WF) (addr : Address) :
    s.getDeletedStateObject addr = (s.peek addr, s.cache addr) := by
  unfold getDeletedStateObject cache peek
  cases hobj : s.stateObjects addr with
  | some obj =>
    have hself : s.setStateObject obj = s :=
      setStateObject_self (by rw [(h.objects addr obj hobj).1, hobj])
    simp only [hself]
  | none => cases htrie : s.trie addr <;> rfl

theorem does_cacheAt (h : s.WF) (addr : Address) : Does s (s.cache addr) s.ledger := by
  unfold cache
  split
  · exact .refl h
  · exact does_cache h ‹_› (.refl (h.peek ‹_›).2)

theorem stateObjects_cache (h : s.WF)
    (hp : s.peek addr = some obj) : (s.cache addr).stateObjects addr = some obj := by
  rw [cache, hp]
  simp only [stateObjects_setStateObject, (h.peek hp).1, if_true]

theorem getStateObject_eq (h : s.WF) (addr : Address) :
    s.getStateObject addr = (s.liveObject addr, s.cache addr) := by
  rw [getStateObject, getDeletedStateObject_eq h, liveObject]
  cases hp : s.peek addr with
  | none => rfl
  | some obj => cases hd : obj.deleted <;> simp [Option.filter, hd]

theorem ledger_live (s : StateDB) (addr : Address) :
    s.ledger.live addr = (s.liveObject addr).map view := by
  simp only [live, ledger, liveObject]
  cases s.peek addr with
  | none => rfl
  | some obj => cases hd : obj.deleted <;> simp [Option.filter, view, hd]

section

variable (h : s.WF)

include h

theorem live_cases (addr : Address) :
    s.getStateObject addr = (none, s.cache addr) ∧ s.ledger.live addr = none ∨
      ∃ obj, s.getStateObject addr = (some obj, s.cache addr) ∧
        s.ledger.live addr = some obj.view ∧ obj.address = addr ∧ obj.WF ∧
        (s.cache addr).stateObjects addr = some obj := by
  cases hl : s.liveObject addr with
  | none => exact .inl ⟨by rw [getStateObject_eq h, hl], by rw [ledger_live, hl]; rfl⟩
  | some obj =>
    have hp := (liveObject_eq_some hl).1
    exact .inr ⟨obj, by rw [getStateObject_eq h, hl], by rw [ledger_live, hl]; rfl, (h.peek hp).1,
      (h.peek hp).2, stateObjects_cache h hp⟩

/-! ## Getters -/

theorem accountQuery_eq (q : AccountQuery) :
    (s.accountQuery q).1 = s.ledger.accountQuery q ∧ Does s (s.accountQuery q).2 s.ledger := by
  have hload : ∀ {addr : Address} {obj obj' : StateObject},
      (s.cache addr).stateObjects addr = some obj → obj.Reads obj' →
      Does s ((s.cache addr).setStateObject obj') s.ledger := by
    intro addr obj obj' hobj hr
    have hcache := does_cacheAt h addr
    have hd := does_cache hcache.wf (peek_of_cached hobj) hr
    rw [hcache.ledger] at hd
    exact hcache.trans hd
  cases q with
  | exist addr | empty addr | getBalance addr | getNonce addr | getCodeHash addr
  | hasSuicided addr =>
    obtain ⟨hget, hlive⟩ | ⟨obj, hget, hlive, -, -, -⟩ := live_cases h addr
    all_goals
      simp only [accountQuery, hget, Ledger.accountQuery, hlive]
      exact ⟨rfl, does_cacheAt h addr⟩
  | getCode addr =>
    obtain ⟨hget, hlive⟩ | ⟨obj, hget, hlive, -, hw, hobj⟩ := live_cases h addr
    · simp only [accountQuery, hget, Ledger.accountQuery, hlive]
      exact ⟨rfl, does_cacheAt h addr⟩
    · simp only [accountQuery, hget, Ledger.accountQuery, hlive, loadCode_fst]
      exact ⟨rfl, hload hobj (reads_loadCode hw)⟩
  | getState addr key =>
    obtain ⟨hget, hlive⟩ | ⟨obj, hget, hlive, -, hw, hobj⟩ := live_cases h addr
    · simp only [accountQuery, hget, Ledger.accountQuery, hlive]
      exact ⟨rfl, does_cacheAt h addr⟩
    · simp only [accountQuery, hget, Ledger.accountQuery, hlive, getState_fst hw]
      exact ⟨rfl, hload hobj (reads_getState hw key)⟩
  | getCommittedState addr key =>
    obtain ⟨hget, hlive⟩ | ⟨obj, hget, hlive, -, hw, hobj⟩ := live_cases h addr
    · simp only [accountQuery, hget, Ledger.accountQuery, hlive]
      exact ⟨rfl, does_cacheAt h addr⟩
    · simp only [accountQuery, hget, Ledger.accountQuery, hlive,
        (getCommittedState_eq hw key).1]
      exact ⟨rfl, hload hobj (reads_getCommittedState hw key)⟩

theorem query_eq (q : Query) :
    (s.query q).1 = s.ledger.query q ∧ Does s (s.query q).2 s.ledger := by
  cases q with
  | account q => exact accountQuery_eq h q
  | getRefund => exact ⟨rfl, .refl h⟩
  | getLogs hash => exact ⟨rfl, .refl h⟩
  | getPreimage hash => exact ⟨rfl, .refl h⟩

/-! ## Setters -/

theorem WF.slots_replaced (obj : StateObject) (k : Hash → Prop)
    (hk : ∀ o, s.peek obj.address = some o → ∀ key, o.Loaded key → k key) :
    Slotted (update (s.setStateObject obj).Known obj.address k) s.journal.entries := by
  refine h.slots.mono fun a key hknown => ?_
  obtain ⟨o, ho, hok⟩ := hknown
  by_cases hne : a = obj.address
  · subst hne
    rw [update_self]
    exact hk o ho key hok
  · rw [update_of_ne hne]
    exact ⟨o, by rw [peek_setStateObject, if_neg hne, ho], hok⟩

theorem does_create (hp : s.peek addr = none) (ha : obj.address = addr) (hw : obj.WF) :
    Does s ((s.append (.createObjectChange addr)).setStateObject obj)
      ((s.ledger.push (.createObjectChange addr)).put addr obj.view) := by
  have hnone : s.stateObjects addr = none := by
    cases hobj : s.stateObjects addr with
    | none => rfl
    | some obj => simp [peek_of_cached hobj] at hp
  have hslots := h.slots_replaced obj (fun _ => False) fun o ho => by
    rw [ha, hp] at ho
    cases ho
  rw [ha] at hslots
  have hok : EntryOk s.trie s.stateObjectsPending (.createObjectChange addr) :=
    ⟨h.inv.trie addr (by simp [ledger, hp]), fun hm => h.pending addr hm hnone⟩
  refine ⟨h.append_setStateObject hw hok (fun a hd => ?_) hslots, ?_, rfl, rfl⟩
  · exact (some.inj hd).symm.trans ha.symm
  · rw [ledger_setStateObject, ledger_append, ha]
    rfl

theorem does_reset {prev : StateObject} (hp : s.peek addr = some prev)
    (ha : obj.address = addr) (hw : obj.WF) :
    Does s ((s.append (.resetObjectChange prev)).setStateObject obj)
      ((s.ledger.push (.resetObjectChange (addr, prev.view))).put addr obj.view) := by
  obtain ⟨hpa, hpw⟩ := h.peek hp
  have hslots := h.slots_replaced obj prev.Loaded fun o ho key hk => by
    rw [ha, hp] at ho
    cases ho
    exact hk
  rw [ha, ← hpa] at hslots
  refine ⟨h.append_setStateObject hw hpw (fun a hd => nomatch hd) hslots, ?_, rfl, rfl⟩
  rw [ledger_setStateObject, ledger_append, ha, JournalEntry.abs, hpa]
  rfl

theorem does_createObject (addr : Address) : Does s (s.createObject addr).2 (s.ledger.create addr) ∧
      (s.createObject addr).1 = (newObject addr Account.new, s.peek addr) ∧
      (s.createObject addr).2.stateObjects addr = some (newObject addr Account.new) := by
  have hw := wf_newObject addr Account.new
  unfold createObject create
  rw [getDeletedStateObject_eq h]
  have hstored : ∀ s' : StateDB, (s'.setStateObject (newObject addr Account.new)).stateObjects
      addr = some (newObject addr Account.new) := by
    intro s'
    rw [stateObjects_setStateObject]
    exact if_pos rfl
  cases hp : s.peek addr with
  | none =>
    have hcache : s.cache addr = s := by rw [cache, hp]
    have hobjects : s.ledger.objects addr = none := by simp [ledger, hp]
    rw [hcache, hobjects]
    exact ⟨does_create h hp rfl hw, rfl, hstored _⟩
  | some prev =>
    have hcache := does_cacheAt h addr
    have hobjects : s.ledger.objects addr = some prev.view := by simp [ledger, hp]
    have hd := does_reset hcache.wf (peek_of_cached (stateObjects_cache h hp)) rfl hw
    rw [hcache.ledger] at hd
    rw [hobjects]
    exact ⟨hcache.trans hd, rfl, hstored _⟩

theorem does_getOrNew (addr : Address) :
    Does s (s.getOrNewStateObject addr).2 (s.ledger.getOrNew addr).2 ∧
      (s.getOrNewStateObject addr).2.stateObjects addr = some (s.getOrNewStateObject addr).1 ∧
      (s.getOrNewStateObject addr).1.view = (s.ledger.getOrNew addr).1 := by
  unfold getOrNewStateObject getOrNew
  obtain ⟨hget, hlive⟩ | ⟨obj, hget, hlive, -, -, hobj⟩ := live_cases h addr
  · have hcache := does_cacheAt h addr
    obtain ⟨hd, hpair, hobj⟩ := does_createObject hcache.wf addr
    rw [hcache.ledger] at hd
    simp only [hget, hlive]
    have hnew : ((s.cache addr).createObject addr).1.1 = newObject addr Account.new :=
      congrArg Prod.fst hpair
    refine ⟨hcache.trans hd, hobj.trans (congrArg some hnew.symm), ?_⟩
    exact (congrArg view hnew).trans (view_newObject addr Account.new)
  · simp only [hget, hlive]
    exact ⟨does_cacheAt h addr, hobj, trivial⟩

end

section Setters

section

variable (h : s.WF)

include h

theorem does_setObjectBalance (hobj : s.stateObjects addr = some obj) (amount : Int) :
    Does s (s.setObjectBalance obj amount)
      ((s.ledger.push (.balanceChange addr obj.view.balance)).put addr
        { obj.view with balance := amount }) := by
  obtain ⟨ha, hw⟩ := h.objects addr obj hobj
  have hd := does_change h (.balanceChange addr obj.data.balance) (obj.setBalance amount)
    (peek_of_cached hobj) ha (hw.setBalance amount) (fun _ => id) rfl (.inl trivial) trivial
  rw [setObjectBalance, ha]
  exact hd

theorem does_setObjectNonce (hobj : s.stateObjects addr = some obj) (nonce : UInt64) :
    Does s (s.setObjectNonce obj nonce) (s.ledger.change obj.view (.setNonce addr nonce)) := by
  obtain ⟨ha, hw⟩ := h.objects addr obj hobj
  have hd := does_change h (.nonceChange addr obj.data.nonce) (obj.setNonce nonce)
    (peek_of_cached hobj) ha (hw.setNonce nonce) (fun _ => id) rfl (.inl trivial) trivial
  rw [setObjectNonce, ha]
  exact hd

theorem does_dirty (hobj : s.stateObjects ripemd ≠ none) :
    Does s { s with journal := s.journal.dirty ripemd } (s.ledger.mark 1) := by
  have hle := length_dirtied_le h.dirties
  refine ⟨⟨h.objects, h.pending, h.dirty, h.entries, h.slots, ?_, ?_⟩, ?_, rfl, rfl⟩
  · obtain ⟨n, hn⟩ := h.dirties
    refine ⟨n + 1, (hn.cons ripemd).trans ?_⟩
    rw [List.replicate_succ]
    exact List.perm_middle.symm
  · exact List.forall_mem_cons.mpr ⟨.inl hobj, h.cached⟩
  · have hmarks : (s.journal.dirties.length + 1) -
        (s.journal.entries.filterMap JournalEntry.dirtied).length = s.ledger.marks + 1 := by
      simp only [ledger]
      omega
    exact Ledger.ext rfl rfl rfl rfl rfl rfl rfl rfl rfl rfl rfl rfl hmarks

section

variable (hobj : s.stateObjects addr = some obj)

include hobj

theorem does_touchObject :
    Does s (s.touchObject obj) ((s.ledger.push (.touchChange addr)).put addr obj.view) := by
  obtain ⟨ha, hw⟩ := h.objects addr obj hobj
  have hd := does_change h (.touchChange addr) obj (peek_of_cached hobj) ha hw (fun _ => id) rfl
    (.inl trivial) trivial
  have hself : (s.append (.touchChange addr)).setStateObject obj = s.append (.touchChange addr) :=
    setStateObject_self (ha ▸ hobj)
  rw [hself] at hd
  unfold touchObject
  rw [ha]
  by_cases hr : addr = ripemd
  · subst hr
    have hm := does_dirty hd.wf (by rw [append, hobj]; simp)
    rw [hd.ledger] at hm
    exact hd.trans hm
  · rw [if_neg hr]
    have hmarks : (JournalEntry.touchChange addr : Entry).marks = 0 := if_neg hr
    have hpush : s.ledger.push (.touchChange addr) = s.ledger.record (.touchChange addr) := by
      rw [push, hmarks, mark_zero]
    rw [hpush]
    exact hd

theorem does_addObjectBalance (amount : Int) :
    Does s (s.addObjectBalance obj amount)
      (s.ledger.change obj.view (.addBalance addr amount)) := by
  have hempty : obj.empty = obj.view.empty := rfl
  unfold addObjectBalance change effect
  by_cases hz : amount = 0
  · simp only [hz, if_true, hempty]
    cases hv : obj.view.empty with
    | true => exact does_touchObject h hobj
    | false => exact .refl h
  · simp only [hz, if_false]
    exact does_setObjectBalance h hobj _

theorem does_subObjectBalance (amount : Int) :
    Does s (s.subObjectBalance obj amount)
      (s.ledger.change obj.view (.subBalance addr amount)) := by
  unfold subObjectBalance change effect
  by_cases hz : amount = 0
  · simp only [hz, if_true]
    exact .refl h
  · simp only [hz, if_false]
    exact does_setObjectBalance h hobj _

theorem does_setObjectCode (code : Bytes) :
    Does s (s.setObjectCode obj (HashFns.keccak256 code) code)
      (s.ledger.change obj.view (.setCode addr code)) := by
  obtain ⟨ha, hw⟩ := h.objects addr obj hobj
  have hr := reads_loadCode hw
  have hcodeHash : obj.loadCode.2.data.codeHash = obj.view.codeHash :=
    congrArg View.codeHash hr.view
  have hempty : ∀ c : Bytes, c = [] → codeAt (HashFns.keccak256 c) = [] := by
    rintro c rfl
    exact if_pos rfl
  have hprev : obj.view.code = [] → codeAt obj.view.codeHash = [] := by
    simp only [view]
    split
    · exact fun hc => absurd hc ‹_›
    · exact id
  have hd := does_change h (.codeChange addr obj.view.code obj.view.codeHash)
    (obj.loadCode.2.setCode (HashFns.keccak256 code) code) (peek_of_cached hobj)
    (hr.address.trans ha) (hr.wf.setCode _ _) hr.loaded rfl (.inl trivial) hprev
  have hview := view_setCode obj.loadCode.2 (hempty code)
  rw [hr.view] at hview
  rw [hview] at hd
  simp only [setObjectCode, loadCode_fst, hr.address, ha, hcodeHash]
  exact hd

theorem does_setObjectState (key value : Hash) : Does s (s.setObjectState obj key value)
      (s.ledger.change obj.view (.setState addr key value)) := by
  obtain ⟨ha, hw⟩ := h.objects addr obj hobj
  have hr := reads_getState hw key
  have hl := loaded_getState hw key
  have hstate : obj.view.state key = (obj.getState key).1 := (getState_fst hw key).symm
  unfold setObjectState change effect
  by_cases heq : (obj.getState key).1 = value
  · simp only [hstate, heq, if_true]
    exact does_cache h (peek_of_cached hobj) hr
  · have hd := does_change h (.storageChange addr key (obj.getState key).1)
      ((obj.getState key).2.setState key value) (peek_of_cached hobj) (hr.address.trans ha)
      (hr.wf.setState hl value) hr.loaded rfl (.inr ⟨key, _, rfl, hl⟩) trivial
    rw [view_setState, hr.view] at hd
    simp only [hstate, heq, if_false, hr.address, ha]
    exact hd

end

end

end Setters

theorem does_createAccount (h : s.WF) (addr : Address) :
    Does s (s.createAccount addr) (s.ledger.createAccount addr) := by
  obtain ⟨hd, hpair, hobj⟩ := does_createObject h addr
  have hview : (newObject addr Account.new).view = newView :=
    view_newObject addr Account.new
  have hnew : (s.ledger.create addr).objects addr = some newView :=
    (Ledger.live_eq_some.mp (Ledger.live_create _ addr)).1
  unfold createAccount Ledger.createAccount
  cases hp : s.peek addr with
  | none =>
    have hobjects : s.ledger.objects addr = none := by simp [ledger, hp]
    rw [hp] at hpair
    have hput : (s.ledger.create addr).put addr { newView with balance := 0 } =
        s.ledger.create addr := put_of_objects hnew
    simp only [hpair, hobjects, map_none, getD_none, hput]
    exact hd
  | some prev =>
    have hobjects : s.ledger.objects addr = some prev.view := by simp [ledger, hp]
    rw [hp] at hpair
    have hw := (hd.wf.objects addr _ hobj).2
    have hset := hd.wf.setStateObject (peek_of_cached hobj) rfl
      (hw.setBalance prev.data.balance) (fun _ => id)
    simp only [hpair, hobjects, map_some, getD_some]
    refine ⟨hset, ?_, hd.revisions, hd.nextRevision⟩
    rw [ledger_setStateObject, hd.ledger, view_setBalance, hview]
    rfl

theorem does_suicide (h : s.WF) (addr : Address) :
    (Answer.bool (s.suicide addr).1) = (s.ledger.accountOp (.suicide addr)).1 ∧
      Does s (s.suicide addr).2 (s.ledger.accountOp (.suicide addr)).2 := by
  unfold suicide Ledger.accountOp
  have hcache := does_cacheAt h addr
  obtain ⟨hget, hlive⟩ | ⟨obj, hget, hlive, ha, hw, hobj⟩ := live_cases h addr
  · simp only [hget, hlive]
    exact ⟨trivial, hcache⟩
  · have hd := does_change hcache.wf (.suicideChange addr obj.suicided obj.data.balance)
      (obj.markSuicided.setBalance 0) (peek_of_cached hobj) ha
      ⟨hw.trie, hw.origin, hw.pending, hw.dirty⟩ (fun _ => id) rfl (.inl trivial) trivial
    rw [hcache.ledger] at hd
    simp only [hget, hlive]
    exact ⟨trivial, hcache.trans hd⟩

theorem does_setter (h : s.WF) (op : AccountOp) {f : StateDB → StateObject → StateDB}
    (hf : ∀ {s : StateDB} {obj : StateObject}, s.WF → s.stateObjects op.target = some obj →
      Does s (f s obj) (s.ledger.change obj.view op)) :
    Does s (f (s.getOrNewStateObject op.target).2 (s.getOrNewStateObject op.target).1)
      ((s.ledger.getOrNew op.target).2.change (s.ledger.getOrNew op.target).1 op) := by
  obtain ⟨hd, hobj, hview⟩ := does_getOrNew h op.target
  have hop := hf hd.wf hobj
  rw [hd.ledger, hview] at hop
  exact hd.trans hop

theorem does_accountOp (h : s.WF) (op : AccountOp) :
    (s.accountOp op).1 = (s.ledger.accountOp op).1 ∧
      Does s (s.accountOp op).2 (s.ledger.accountOp op).2 := by
  cases op with
  | setBalance addr amount =>
    exact ⟨rfl, does_setter h (.setBalance addr amount)
      fun h hobj => does_setObjectBalance h hobj amount⟩
  | addBalance addr amount =>
    exact ⟨rfl, does_setter h (.addBalance addr amount)
      fun h hobj => does_addObjectBalance h hobj amount⟩
  | subBalance addr amount =>
    exact ⟨rfl, does_setter h (.subBalance addr amount)
      fun h hobj => does_subObjectBalance h hobj amount⟩
  | setNonce addr nonce =>
    exact ⟨rfl, does_setter h (.setNonce addr nonce) fun h hobj => does_setObjectNonce h hobj nonce⟩
  | setCode addr code =>
    exact ⟨rfl, does_setter h (.setCode addr code) fun h hobj => does_setObjectCode h hobj code⟩
  | setState addr key value =>
    exact ⟨rfl, does_setter h (.setState addr key value)
      fun h hobj => does_setObjectState h hobj key value⟩
  | createAccount addr => exact ⟨rfl, does_createAccount h addr⟩
  | suicide addr => exact does_suicide h addr

theorem does_other (h : s.WF) (e : JournalEntry StateObject) (hplain : Plain e)
    (hd : e.dirtied = none) (hok : EntryOk s.trie s.stateObjectsPending e) (refund : UInt64)
    (logs : Hash → List Log) (logSize : UInt64) (preimages : Hash → Option Bytes) :
    Does s { s.append e with refund, logs, logSize, preimages }
      { s.ledger.record e.abs with refund, logs, logSize, preimages } := by
  have hdirties : (s.append e).journal.dirties = s.journal.dirties := by
    simp only [append, Journal.append, hd, toList_none, List.nil_append]
  refine ⟨⟨h.objects, h.pending, h.dirty, List.forall_mem_cons.mpr ⟨hok, h.entries⟩,
    h.slots.plain hplain, ?_, hdirties ▸ h.cached⟩, ?_, rfl, rfl⟩
  · dsimp only
    rw [hdirties, append, Journal.append, List.filterMap_cons_none hd]
    exact h.dirties
  · exact congrArg (fun l : Ledger => { l with refund, logs, logSize, preimages })
      (ledger_append s e)

theorem op_cases (h : s.WF) (o : Op) : s.op o = none ∧ s.ledger.op o = none ∨
      ∃ answer s' l, s.op o = some (answer, s') ∧ s.ledger.op o = some (answer, l) ∧
        Does s s' l := by
  cases o with
  | query q =>
    obtain ⟨hanswer, hd⟩ := query_eq h q
    exact .inr ⟨(s.query q).1, (s.query q).2, s.ledger, rfl, by rw [Ledger.op, hanswer], hd⟩
  | account op =>
    obtain ⟨hanswer, hd⟩ := does_accountOp h op
    exact .inr ⟨(s.accountOp op).1, (s.accountOp op).2, (s.ledger.accountOp op).2, rfl,
      by rw [Ledger.op, hanswer], hd⟩
  | addLog log =>
    exact .inr ⟨.none, s.addLog log, _, rfl, rfl,
      does_other h (.addLogChange s.thash) trivial rfl trivial _ _ _ _⟩
  | addRefund gas =>
    exact .inr ⟨.none, s.addRefund gas, _, rfl, rfl,
      does_other h (.refundChange s.refund) trivial rfl trivial _ _ _ _⟩
  | subRefund gas =>
    have hrefund : (s.append (.refundChange s.refund)).refund = s.refund := rfl
    by_cases hlt : gas > s.refund
    · exact .inl ⟨by simp [op, subRefund, hrefund, hlt], if_pos hlt⟩
    · exact .inr ⟨.none, { s.append (.refundChange s.refund) with refund := s.refund - gas }, _,
        by simp [op, subRefund, hrefund, hlt], if_neg hlt,
        does_other h (.refundChange s.refund) trivial rfl trivial _ _ _ _⟩
  | addPreimage hash preimage =>
    cases hp : s.preimages hash with
    | some p =>
      refine .inr ⟨.none, s, s.ledger, by simp [op, addPreimage, hp], ?_, .refl h⟩
      have hp' : s.ledger.preimages hash = some p := hp
      simp [Ledger.op, hp']
    | none =>
      have hp' : s.ledger.preimages hash = none := hp
      exact .inr ⟨.none, { s.append (.addPreimageChange hash) with
        preimages := update s.preimages hash (some preimage) }, _,
        by simp [op, addPreimage, hp, append], by rw [Ledger.op, hp']; rfl,
        does_other h (.addPreimageChange hash) trivial rfl trivial _ _ _ _⟩

end StateDB

end GethComments.State
