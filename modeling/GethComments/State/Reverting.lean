import GethComments.State.Refinement

/-!
# Undoing the journal of the state database

* `revert_cases`: an entry is undone on the cached objects as on the ledger;
* `revertLast_cases`, `revertEntries_cases`: so are the newest entry and any number of them.
-/

namespace GethComments.State.StateDB

open Function List

variable [HashFns] [Database] {s : StateDB}

omit [HashFns] [Database] in
theorem journal_cache (s : StateDB) (addr : Address) : (s.cache addr).journal = s.journal := by
  unfold cache
  split <;> rfl

theorem known_cache (h : s.WF) (addr a : Address) (key : Hash) (hk : s.Known a key) :
    (s.cache addr).Known a key := by
  obtain ⟨o, ho, hok⟩ := hk
  refine ⟨o, ?_, hok⟩
  unfold cache
  split
  · exact ho
  · rename_i obj hp
    rw [peek_setStateObject]
    split
    · rename_i heq
      rw [heq, (h.peek hp).1, hp] at ho
      exact ho
    · exact ho

variable {entries : List (JournalEntry StateObject)} {addr : Address}

theorem onObject_cases (h : s.WF) (hs : Slotted s.Known entries) {f : StateObject → StateObject}
    {g : View → View}
    (hf : ∀ obj, s.peek addr = some obj → (f obj).address = obj.address ∧ (f obj).WF ∧
      (∀ key, obj.Loaded key → (f obj).Loaded key) ∧ (f obj).view = g obj.view) :
    s.onObject addr f = none ∧ s.ledger.onObject addr g = none ∨
      ∃ s' l, s.onObject addr f = some s' ∧ s.ledger.onObject addr g = some l ∧ Does s s' l ∧
        s'.journal = s.journal ∧ Slotted s'.Known entries := by
  unfold onObject Ledger.onObject
  cases hl : s.liveObject addr with
  | none => exact .inl ⟨by rw [getStateObject_eq h, hl], by rw [ledger_live, hl]; rfl⟩
  | some obj =>
    obtain ⟨hp, -⟩ := liveObject_eq_some hl
    obtain ⟨ha, hw, hload, hview⟩ := hf obj hp
    have hcache := does_cacheAt h addr
    have hpeek : (s.cache addr).peek addr = some obj := peek_of_cached (stateObjects_cache h hp)
    have ha' : (f obj).address = addr := ha.trans (h.peek hp).1
    refine .inr ⟨_, _, by rw [getStateObject_eq h, hl], by rw [ledger_live, hl]; rfl, ?_, ?_, ?_⟩
    · refine ⟨hcache.wf.setStateObject hpeek ha' hw hload, ?_, hcache.revisions,
        hcache.nextRevision⟩
      rw [ledger_setStateObject, hcache.ledger, hview, ha']
    · exact journal_cache s addr
    · exact hs.mono fun a key hk =>
        known_setStateObject hpeek ha' hload a key (known_cache h addr a key hk)

omit [HashFns] [Database] in
theorem update_known {known known' : Address → Hash → Prop} {p : Hash → Prop}
    (h : ∀ a k, update known addr p a k → known' a k) (a : Address) (k : Hash)
    (hk : update known addr p a k) : update known' addr p a k := by
  by_cases hne : a = addr
  · subst hne
    rwa [update_self] at hk ⊢
  · have hk' := h a k hk
    rwa [update_of_ne hne]

omit [HashFns] [Database] in
theorem peek_removeStateObject {a : Address} (hne : a ≠ addr) :
    (s.removeStateObject addr).peek a = s.peek a := by
  rw [peek, peek, removeStateObject]
  simp only [update_of_ne hne]

theorem ledger_removeStateObject (s : StateDB) (addr : Address) :
    (s.removeStateObject addr).ledger = { s.ledger with
      objects := update s.ledger.objects addr ((s.trie addr).map View.ofAccount)
      dirty := s.ledger.dirty \ {addr} } := by
  refine Ledger.ext rfl (funext fun a => ?_) rfl ?_ rfl rfl rfl rfl rfl rfl rfl rfl rfl
  · by_cases hne : a = addr
    · subst hne
      simp only [ledger, peek, removeStateObject, update_self]
      cases s.trie a with
      | none => rfl
      | some data => exact congrArg some (StateObject.view_newObject a data)
    · simp only [ledger, peek_removeStateObject hne, update_of_ne hne]
  · ext a
    simp [ledger, removeStateObject]

theorem revert_create (h : s.WF) (he : s.journal.entries = .createObjectChange addr :: entries) :
    (s.removeStateObject addr).WF ∧ Slotted (s.removeStateObject addr).Known entries := by
  have hok : s.trie addr = none ∧ addr ∉ s.stateObjectsPending :=
    h.entries (.createObjectChange addr) (he ▸ mem_cons_self)
  have hslots : Slotted (update s.Known addr fun _ => False) entries := by
    have hs := h.slots
    rwa [he] at hs
  have hknown : ∀ a k, update s.Known addr (fun _ => False) a k →
      (s.removeStateObject addr).Known a k := by
    intro a k hk
    have hne : a ≠ addr := by
      rintro rfl
      rwa [update_self] at hk
    rw [update_of_ne hne] at hk
    obtain ⟨o, ho, hok⟩ := hk
    exact ⟨o, by rw [peek_removeStateObject hne, ho], hok⟩
  have hagain : Slotted (update (s.removeStateObject addr).Known addr fun _ => False)
      entries := hslots.mono (update_known hknown)
  have hstored : ∀ a, a ≠ addr → s.stateObjects a ≠ none →
      update s.stateObjects addr none a ≠ none := by
    intro a hne hs
    rwa [update_of_ne hne]
  have hentries : (s.removeStateObject addr).journal.entries =
      .createObjectChange addr :: entries := he
  refine ⟨⟨fun a o ho => ?_, fun a hm => ?_, fun a hm => ?_, h.entries, ?_, h.dirties,
    fun a hm => ?_⟩, hslots.mono hknown⟩
  · simp only [removeStateObject, update_apply] at ho
    split at ho
    · cases ho
    · exact h.objects a o ho
  · exact hstored a (fun heq => hok.2 (heq ▸ hm)) (h.pending a hm)
  · obtain ⟨hm, hne⟩ := mem_filter.mp hm
    exact hstored a (of_decide_eq_true hne) (h.dirty a hm)
  · rw [hentries]
    exact hagain
  · by_cases hne : a = addr
    · exact .inr (hne ▸ hok.1)
    · exact (h.cached a hm).imp_left (hstored a hne)

theorem revert_reset (h : s.WF) {prev : StateObject}
    (he : s.journal.entries = .resetObjectChange prev :: entries) :
    (s.setStateObject prev).WF ∧ Slotted (s.setStateObject prev).Known entries := by
  have hok : prev.WF := h.entries (.resetObjectChange prev) (he ▸ mem_cons_self)
  have hslots : Slotted (update s.Known prev.address prev.Loaded) entries := by
    have hs := h.slots
    rwa [he] at hs
  have hknown : ∀ a k, update s.Known prev.address prev.Loaded a k →
      (s.setStateObject prev).Known a k := by
    intro a k hk
    by_cases hne : a = prev.address
    · rw [hne, update_self] at hk
      exact ⟨prev, by rw [peek_setStateObject, if_pos hne], hk⟩
    · rw [update_of_ne hne] at hk
      obtain ⟨o, ho, hok⟩ := hk
      exact ⟨o, by rw [peek_setStateObject, if_neg hne, ho], hok⟩
  refine ⟨⟨objects_setStateObject h.objects hok,
    fun a hm => cached_setStateObject s prev (h.pending a hm),
    fun a hm => cached_setStateObject s prev (h.dirty a hm), h.entries, ?_, h.dirties,
    fun a hm => (h.cached a hm).imp_left (cached_setStateObject s prev)⟩, hslots.mono hknown⟩
  have hentries : (s.setStateObject prev).journal.entries = .resetObjectChange prev :: entries := he
  have hagain : Slotted (update (s.setStateObject prev).Known prev.address prev.Loaded)
      entries := hslots.mono (update_known hknown)
  rw [hentries]
  exact hagain

theorem revert_cases (h : s.WF) {e : JournalEntry StateObject}
    (he : s.journal.entries = e :: entries) :
    e.revert s = none ∧ Ledger.revert e.abs s.ledger = none ∨
      ∃ s' l, e.revert s = some s' ∧ Ledger.revert e.abs s.ledger = some l ∧ Does s s' l ∧
        s'.journal = s.journal ∧ Slotted s'.Known entries := by
  have hslots := h.slots
  rw [he] at hslots
  cases e with
  | createObjectChange addr =>
    obtain ⟨hwf, hsl⟩ := revert_create h he
    exact .inr ⟨_, _, rfl, rfl, ⟨hwf, ledger_removeStateObject s addr, rfl, rfl⟩, rfl, hsl⟩
  | resetObjectChange prev =>
    obtain ⟨hwf, hsl⟩ := revert_reset h he
    exact .inr ⟨_, _, rfl, rfl, ⟨hwf, ledger_setStateObject s prev, rfl, rfl⟩, rfl, hsl⟩
  | suicideChange addr prev prevbalance =>
    have hcases : s.onObject addr (fun obj =>
        { obj with suicided := prev }.setBalance prevbalance) =
          none ∧ s.ledger.onObject addr
            (fun v => { v with suicided := prev, balance := prevbalance }) = none ∨ _ :=
      onObject_cases h hslots fun obj hp =>
        have hw := (h.peek hp).2
        ⟨rfl, ⟨hw.trie, hw.origin, hw.pending, hw.dirty⟩, fun _ => id, rfl⟩
    simp only [JournalEntry.revert, JournalEntry.abs, Ledger.revert]
    unfold onObject Ledger.onObject at hcases
    obtain ⟨hget, hlive⟩ | ⟨obj, hget, hlive, -, -, -⟩ := live_cases h addr
    · simp only [hget, hlive]
      refine .inr ⟨_, _, rfl, rfl, does_cacheAt h addr, journal_cache s addr, ?_⟩
      exact hslots.mono (known_cache h addr)
    · simp only [hget, hlive] at hcases ⊢
      exact hcases
  | balanceChange addr prev =>
    exact onObject_cases h hslots
      fun obj hp => ⟨rfl, (h.peek hp).2.setBalance prev, fun _ => id, rfl⟩
  | nonceChange addr prev =>
    exact onObject_cases h hslots
      fun obj hp => ⟨rfl, (h.peek hp).2.setNonce prev, fun _ => id, rfl⟩
  | storageChange addr key prevalue =>
    obtain ⟨⟨o, ho, hload⟩, hslots⟩ := hslots
    refine onObject_cases h hslots fun obj hp => ?_
    rw [ho] at hp
    cases hp
    exact ⟨rfl, (h.peek ho).2.setState hload prevalue, fun _ => id,
      StateObject.view_setState o key prevalue⟩
  | codeChange addr prevcode prevhash =>
    have hok := h.entries _ (he ▸ mem_cons_self)
    exact onObject_cases h hslots
      fun obj hp => ⟨rfl, (h.peek hp).2.setCode prevhash prevcode, fun _ => id,
        StateObject.view_setCode obj hok⟩
  | refundChange prev =>
    exact .inr ⟨_, _, rfl, rfl, ⟨⟨h.objects, h.pending, h.dirty, h.entries, h.slots, h.dirties,
      h.cached⟩, rfl, rfl, rfl⟩, rfl, hslots⟩
  | addLogChange txhash =>
    have hlogs : s.ledger.logs = s.logs := rfl
    simp only [JournalEntry.revert, JournalEntry.abs, Ledger.revert, hlogs]
    by_cases hnil : s.logs txhash = []
    · exact .inl ⟨if_pos hnil, if_pos hnil⟩
    · exact .inr ⟨_, _, if_neg hnil, if_neg hnil,
        ⟨⟨h.objects, h.pending, h.dirty, h.entries, h.slots, h.dirties, h.cached⟩, rfl, rfl, rfl⟩,
        rfl, hslots⟩
  | addPreimageChange hash =>
    exact .inr ⟨_, _, rfl, rfl, ⟨⟨h.objects, h.pending, h.dirty, h.entries, h.slots, h.dirties,
      h.cached⟩, rfl, rfl, rfl⟩, rfl, hslots⟩
  | touchChange addr => exact .inr ⟨_, _, rfl, rfl, .refl h, rfl, hslots⟩

theorem does_drop (h : s.WF) {e : JournalEntry StateObject} (he : s.journal.entries = e :: entries)
    (hs : Slotted s.Known entries) :
    Does s (s.dropEntry e entries) { s.ledger with entries := entries.map JournalEntry.abs } := by
  obtain ⟨n, hn⟩ := h.dirties
  rw [he] at hn
  have hentries : ∀ e' ∈ entries, EntryOk s.trie s.stateObjectsPending e' := fun e' he' =>
    h.entries e' (he ▸ mem_cons_of_mem e he')
  have hperm : (s.dropEntry e entries).journal.dirties.Perm
      (entries.filterMap JournalEntry.dirtied ++ replicate n ripemd) := by
    simp only [dropEntry]
    cases hd : e.dirtied with
    | none => rwa [filterMap_cons_none hd] at hn
    | some addr =>
      rw [filterMap_cons_some hd, cons_append] at hn
      have herase := hn.erase addr
      rwa [erase_cons_head] at herase
  have hsub : ∀ addr ∈ (s.dropEntry e entries).journal.dirties, addr ∈ s.journal.dirties := by
    intro addr
    simp only [dropEntry]
    cases e.dirtied with
    | none => exact id
    | some _ => exact mem_of_mem_erase
  refine ⟨⟨h.objects, h.pending, h.dirty, hentries, hs, ⟨n, hperm⟩,
    fun addr ha => h.cached addr (hsub addr ha)⟩, ?_, rfl, rfl⟩
  refine Ledger.ext rfl rfl rfl rfl rfl rfl rfl rfl rfl rfl rfl rfl ?_
  have hlen := hperm.length_eq
  have hlen' := hn.length_eq
  simp only [length_append, length_replicate] at hlen hlen'
  have hentries : (s.dropEntry e entries).journal.entries = entries := rfl
  simp only [ledger, he, hentries]
  omega

theorem revertLast_cases (h : s.WF) : s.revertLast = none ∧ s.ledger.undo = none ∨
      ∃ s' l, s.revertLast = some s' ∧ s.ledger.undo = some l ∧ Does s s' l := by
  unfold revertLast Ledger.undo
  cases he : s.journal.entries with
  | nil =>
    have he' : s.ledger.entries = [] := by simp [ledger, he]
    exact .inl ⟨rfl, by rw [he']⟩
  | cons e entries =>
    have he' : s.ledger.entries = e.abs :: entries.map JournalEntry.abs := by simp [ledger, he]
    rw [he']
    obtain ⟨hs, hl⟩ | ⟨s', l, hs, hl, hd, hj, hslots⟩ := revert_cases h he
    · exact .inl ⟨by simp [hs], by simp [hl]⟩
    · have hdrop := does_drop hd.wf (hj ▸ he) hslots
      rw [hd.ledger] at hdrop
      exact .inr ⟨s'.dropEntry e entries, { l with entries := entries.map JournalEntry.abs },
        by simp [hs], by simp [hl], hd.trans hdrop⟩

theorem revertEntries_cases (touched : Prop) (h : s.WF) (n : Nat) :
    s.revertEntries n = none ∧ (Ledger.journalLog touched).rewind n s.ledger = none ∨
      ∃ s' l, s.revertEntries n = some s' ∧
        (Ledger.journalLog touched).rewind n s.ledger = some l ∧ Does s s' l := by
  induction n generalizing s with
  | zero => exact .inr ⟨s, s.ledger, rfl, rfl, .refl h⟩
  | succ n ih =>
    have hundo : (Ledger.journalLog touched).undo s.ledger = s.ledger.undo := rfl
    rw [revertEntries, UndoLog.rewind, hundo]
    obtain ⟨hs, hl⟩ | ⟨s1, l1, hs, hl, hd⟩ := revertLast_cases h
    · exact .inl ⟨by rw [hs]; rfl, by rw [hl]; rfl⟩
    · rw [hs, hl, ← hd.ledger, Option.bind_some, Option.bind_some]
      obtain ⟨hs', hl'⟩ | ⟨s', l', hs', hl', hd'⟩ := ih hd.wf
      · exact .inl ⟨hs', hl'⟩
      · exact .inr ⟨s', l', hs', hl', hd.trans hd'⟩

end GethComments.State.StateDB
