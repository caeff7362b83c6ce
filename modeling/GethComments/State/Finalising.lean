import GethComments.State.Refinement

/-!
# The end of a transaction in the state database

`Finalise`, `IntermediateRoot`, `Commit` and `Copy` do to the ledger of a state what the functions
of the ledger do. The objects of the dirty addresses are treated one by one.

* `does_finalise`, `intermediateRoot_cases`, `commit_cases`, `copy_eq`.
-/

namespace GethComments.State.StateDB

open List StateObject

variable {s : StateDB}

/-! ## Dirty objects -/

/-- The objects of the addresses `A`, each changed on its own. -/
def changeAt (A : List Address) (f : StateObject → StateObject)
    (objects : Address → Option StateObject) (addr : Address) : Option StateObject :=
  if addr ∈ A then (objects addr).map f else objects addr

section

variable {A : List Address} {f : StateObject → StateObject}
  {objects : Address → Option StateObject} {addr : Address} {obj : StateObject}

theorem changeAt_eq_none : changeAt A f objects addr = none ↔ objects addr = none := by
  unfold changeAt
  split <;> simp

theorem wf_changeAt (hf : ∀ {obj}, obj.WF → (f obj).address = obj.address ∧ (f obj).WF)
    (h : ∀ addr obj, objects addr = some obj → obj.address = addr ∧ obj.WF)
    (hobj : changeAt A f objects addr = some obj) : obj.address = addr ∧ obj.WF := by
  unfold changeAt at hobj
  split at hobj
  · obtain ⟨o, ho, rfl⟩ := Option.map_eq_some_iff.mp hobj
    obtain ⟨ha, hw⟩ := h addr o ho
    exact ⟨(hf hw).1.trans ha, (hf hw).2⟩
  · exact h addr obj hobj

theorem cached_dirtyObjects (h : addr ∈ s.dirtyObjects) : s.stateObjects addr ≠ none :=
  Option.isSome_iff_ne_none.mp (mem_filter.mp h).2

end

variable [HashFns] [Database]

theorem mem_dirties (h : s.WF) (addr : Address) :
    addr ∈ s.journal.dirties ↔ s.ledger.Changed addr := by
  obtain ⟨n, hn⟩ := h.dirties
  have hmarks : s.ledger.marks = n := by
    have hlen := hn.length_eq
    simp only [length_append, length_replicate] at hlen
    simp only [ledger]
    omega
  have hfilter : s.ledger.entries.filterMap JournalEntry.dirtied =
      s.journal.entries.filterMap JournalEntry.dirtied := by
    simp only [ledger, filterMap_map]
    exact filterMap_congr fun e _ => dirtied_abs e
  rw [hn.mem_iff, Ledger.Changed, hmarks, hfilter, mem_append, mem_replicate,
    Nat.pos_iff_ne_zero]

theorem cached_iff (h : s.WF) {addr : Address} (hd : addr ∈ s.journal.dirties) :
    s.stateObjects addr ≠ none ↔ s.ledger.objects addr ≠ none := by
  have hobjects : s.ledger.objects addr = (s.peek addr).map view := rfl
  rw [hobjects]
  cases hobj : s.stateObjects addr with
  | some obj => simp [peek_of_cached hobj]
  | none =>
    have htrie : s.trie addr = none := (h.cached addr hd).resolve_left (by simp [hobj])
    simp [peek, hobj, htrie]

theorem mem_dirtyObjects (h : s.WF) (addr : Address) :
    addr ∈ s.dirtyObjects ↔ addr ∈ s.ledger.changedObjects := by
  rw [dirtyObjects, mem_filter, Option.isSome_iff_ne_none]
  constructor
  · rintro ⟨hd, hobj⟩
    exact ⟨(mem_dirties h addr).mp hd, (cached_iff h hd).mp hobj⟩
  · rintro ⟨hc, hobj⟩
    have hd := (mem_dirties h addr).mpr hc
    exact ⟨hd, (cached_iff h hd).mpr hobj⟩

theorem view_finaliseWith (b : Bool) (obj : StateObject) :
    (obj.finaliseWith b).view = obj.view.finalise b := by
  have hcond : (obj.suicided || (b && obj.empty)) = (obj.view.suicided || (b && obj.view.empty)) :=
    rfl
  unfold finaliseWith View.finalise
  rw [hcond]
  split
  · rfl
  · exact view_finalise obj

variable {obj : StateObject}

omit [Database] in
theorem wf_finaliseWith (b : Bool) (h : obj.WF) :
    (obj.finaliseWith b).address = obj.address ∧ (obj.finaliseWith b).WF := by
  unfold finaliseWith
  split
  · exact ⟨rfl, h.trie, h.origin, h.pending, h.dirty⟩
  · exact ⟨rfl, h.finalise⟩

theorem ledger_finaliseObjects (h : s.WF) (b : Bool) :
    (s.finaliseObjects b).ledger = s.ledger.finaliseObjects b := by
  have hset : ∀ l : List Address, {addr | addr ∈ s.dirtyObjects ++ l} =
      s.ledger.changedObjects ∪ {addr | addr ∈ l} := by
    intro l
    ext addr
    simp only [mem_append, mem_dirtyObjects h, Set.mem_ofPred_eq, Set.mem_union]
  refine Ledger.ext rfl (funext fun addr => ?_) (hset _) (hset _) rfl rfl rfl rfl
    rfl rfl rfl rfl rfl
  simp only [Ledger.finaliseObjects]
  by_cases hd : addr ∈ s.journal.dirties
  · rw [if_pos ((mem_dirties h addr).mp hd)]
    simp only [ledger, peek, finaliseObjects, if_pos hd]
    cases hobj : s.stateObjects addr with
    | some obj => exact congrArg some (view_finaliseWith b obj)
    | none =>
      have htrie : s.trie addr = none := (h.cached addr hd).resolve_left (by simp [hobj])
      simp [htrie]
  · rw [if_neg fun hc => hd ((mem_dirties h addr).mpr hc)]
    simp only [ledger, peek, finaliseObjects, if_neg hd]

theorem does_finalise (h : s.WF) (b : Bool) :
    (s.finalise b).WF ∧ (s.finalise b).ledger = s.ledger.finalise b ∧
      (s.finalise b).journal.entries = [] := by
  have hledger := ledger_finaliseObjects h b
  have hobjects : ∀ addr obj, (s.finaliseObjects b).stateObjects addr = some obj →
      obj.address = addr ∧ obj.WF := fun addr obj => wf_changeAt (wf_finaliseWith b) h.objects
  have hstored : ∀ addr, s.stateObjects addr ≠ none →
      (s.finaliseObjects b).stateObjects addr ≠ none := fun addr hs hn =>
    hs (changeAt_eq_none.mp hn)
  have hwaiting : ∀ l : List Address, (∀ addr ∈ l, s.stateObjects addr ≠ none) →
      ∀ addr ∈ s.dirtyObjects ++ l, (s.finaliseObjects b).stateObjects addr ≠ none :=
    fun l hl => forall_mem_append.mpr
      ⟨fun addr hm => hstored addr (cached_dirtyObjects hm),
        fun addr hm => hstored addr (hl addr hm)⟩
  have hpending := hwaiting _ h.pending
  have hdirty := hwaiting _ h.dirty
  rw [finalise, Ledger.finalise, ← hledger]
  unfold clearJournalAndRefund Ledger.clearJournalAndRefund
  by_cases he : s.journal.entries = []
  · have he1 : (s.finaliseObjects b).journal.entries = [] := he
    have he2 : (s.finaliseObjects b).ledger.entries = [] := by simp [ledger, he1]
    rw [if_pos he1, if_pos he2]
    refine ⟨⟨hobjects, hpending, hdirty, by simp [he1], by simp [he1, Slotted], h.dirties, ?_⟩, rfl,
      he1⟩
    exact fun addr hm => (h.cached addr hm).imp_left (hstored addr)
  · have he1 : (s.finaliseObjects b).journal.entries ≠ [] := he
    have he2 : (s.finaliseObjects b).ledger.entries ≠ [] := by simpa [ledger] using he1
    rw [if_neg he1, if_neg he2]
    exact ⟨⟨hobjects, hpending, hdirty, by simp, trivial, ⟨0, by simp⟩, by simp⟩, rfl, rfl⟩

/-! ### Writing out -/

theorem view_updateLive (h : obj.WF) : obj.updateLive.view = obj.view.settle := by
  have hdeleted : obj.deleted = obj.view.deleted := rfl
  unfold updateLive View.settle
  rw [hdeleted]
  split
  · rfl
  · exact (writtenOut_updateRoot h).view

theorem wf_updateLive (h : obj.WF) : obj.updateLive.address = obj.address ∧ obj.updateLive.WF := by
  unfold updateLive
  split
  · exact ⟨rfl, h⟩
  · have hout := writtenOut_updateRoot h
    exact ⟨hout.address, hout.wf⟩

theorem view_commitLive (h : obj.WF) : obj.commitLive.view = obj.view.settle ∧
      obj.commitLive.address = obj.address ∧ obj.commitLive.WF := by
  have hdeleted : obj.deleted = obj.view.deleted := rfl
  unfold commitLive View.settle
  rw [hdeleted]
  split
  · exact ⟨rfl, rfl, h⟩
  · have hw : ∀ d : Bool, ({ obj with dirtyCode := d } : StateObject).WF := fun d =>
      ⟨h.trie, h.origin, h.pending, h.dirty⟩
    dsimp only
    split
    · have hout := writtenOut_commitTrie (hw false)
      exact ⟨hout.view, hout.address, hout.wf⟩
    · have hout := writtenOut_commitTrie h
      exact ⟨hout.view, hout.address, hout.wf⟩

theorem writtenAccount_eq (h : obj.WF) :
    writtenAccount obj = if obj.deleted then none else some obj.view.account := by
  have hout := writtenOut_updateRoot h
  have hnonce : obj.updateRoot.data.nonce = obj.view.nonce := congrArg View.nonce hout.view
  have hbalance : obj.updateRoot.data.balance = obj.view.balance := congrArg View.balance hout.view
  have hcode : obj.updateRoot.data.codeHash = obj.view.codeHash := congrArg View.codeHash hout.view
  have hdata : obj.updateRoot.data = obj.view.account := by
    rw [View.account, ← hnonce, ← hbalance, ← hcode, ← hout.root]
  rw [writtenAccount, hdata]

theorem does_writeObjects (h : s.WF) (he : s.journal.entries = []) :
    Does s s.writeObjects s.ledger.write := by
  have hobj : ∀ addr, s.writeObjects.stateObjects addr = none ↔ s.stateObjects addr = none :=
    fun addr => changeAt_eq_none
  have he' : s.writeObjects.journal.entries = [] := he
  refine ⟨⟨fun addr obj => wf_changeAt wf_updateLive h.objects, by simp [writeObjects],
    fun addr hm hn => h.dirty addr hm ((hobj addr).mp hn), by simp [he'], by simp [he', Slotted],
    h.dirties, fun addr hm => ?_⟩, ?_, rfl, rfl⟩
  · rcases h.cached addr hm with hc | hc
    · exact .inl fun hn => hc ((hobj addr).mp hn)
    · by_cases hp : addr ∈ s.stateObjectsPending
      · exact .inl fun hn => h.pending addr hp ((hobj addr).mp hn)
      · exact .inr (by simp only [writeObjects, if_neg hp, hc])
  · have hlive : ∀ addr ∈ s.stateObjectsPending, ∃ obj, s.stateObjects addr = some obj ∧
        obj.WF := by
      intro addr hp
      obtain ⟨obj, ho⟩ := Option.ne_none_iff_exists'.mp (h.pending addr hp)
      exact ⟨obj, ho, (h.objects addr obj ho).2⟩
    refine Ledger.ext (funext fun addr => ?_) (funext fun addr => ?_) ?_ rfl rfl rfl rfl rfl rfl rfl
      rfl rfl rfl
    · simp only [Ledger.write, ledger_live]
      by_cases hp : addr ∈ s.stateObjectsPending
      · obtain ⟨obj, ho, hw⟩ := hlive addr hp
        have hp' : addr ∈ s.ledger.pending := hp
        rw [if_pos hp']
        simp only [ledger, writeObjects, if_pos hp, liveObject, peek_of_cached ho, ho,
          Option.bind_some, writtenAccount_eq hw]
        cases hd : obj.deleted <;> simp [Option.filter, hd]
      · have hp' : addr ∉ s.ledger.pending := hp
        rw [if_neg hp']
        simp only [ledger, writeObjects, if_neg hp]
    · simp only [Ledger.write]
      by_cases hp : addr ∈ s.stateObjectsPending
      · obtain ⟨obj, ho, hw⟩ := hlive addr hp
        have hp' : addr ∈ s.ledger.pending := hp
        rw [if_pos hp']
        simp only [ledger, peek, writeObjects, if_pos hp, ho, Option.map_some, view_updateLive hw]
      · have hp' : addr ∉ s.ledger.pending := hp
        rw [if_neg hp']
        simp only [ledger, peek, writeObjects, if_neg hp]
    · simp [ledger, writeObjects, Ledger.write]

theorem any_unencodable (h : s.WF) :
    s.stateObjectsPending.any s.unencodable = true ↔ s.ledger.Unencodable := by
  rw [any_eq_true]
  refine exists_congr fun addr => and_congr_right fun hp => ?_
  obtain ⟨obj, ho⟩ := Option.ne_none_iff_exists'.mp (h.pending addr hp)
  have hbalance : obj.view.balance = obj.data.balance := rfl
  simp only [unencodable, ho, ledger_live, liveObject, peek_of_cached ho]
  cases hd : obj.deleted <;> simp [Option.filter, hd, hbalance]

/-- What a function that returns a root has done: the ledger that it leaves, between two
transactions. -/
structure Roots (s s' : StateDB) (root : Root) (l : Ledger) : Prop where
  wf : s'.WF
  ledger : s'.ledger = l
  root : root = s'.trie
  entries : s'.journal.entries = []
  revisions : s'.validRevisions = []
  nextRevision : s'.nextRevisionId = s.nextRevisionId

omit [Database] in
theorem finalise_revisions (s : StateDB) (b : Bool) :
    (s.finalise b).validRevisions = [] ∧ (s.finalise b).nextRevisionId = s.nextRevisionId := by
  unfold finalise clearJournalAndRefund
  dsimp only
  split <;> exact ⟨rfl, rfl⟩

theorem intermediateRoot_cases (h : s.WF) (b : Bool) :
    s.intermediateRoot b = none ∧ s.ledger.intermediateRoot b = none ∨
      ∃ root s' l, s.intermediateRoot b = some (root, s') ∧
        s.ledger.intermediateRoot b = some (root, l) ∧ Roots s s' root l := by
  obtain ⟨hwf, hledger, he⟩ := does_finalise h b
  obtain ⟨hrev, hnext⟩ := finalise_revisions s b
  unfold intermediateRoot Ledger.intermediateRoot
  rw [← hledger]
  dsimp only
  by_cases hu : (s.finalise b).ledger.Unencodable
  · exact .inl ⟨if_pos ((any_unencodable hwf).mpr hu), if_pos hu⟩
  · have hd := does_writeObjects hwf he
    refine .inr ⟨(s.finalise b).writeObjects.trie, (s.finalise b).writeObjects, _,
      if_neg fun ha => hu ((any_unencodable hwf).mp ha), ?_, hd.wf, hd.ledger, rfl, he, hrev, hnext⟩
    rw [if_neg hu, ← hd.ledger]
    rfl

theorem does_commitObjects (h : s.WF) (he : s.journal.entries = []) :
    Does s s.commitObjects s.ledger.settleDirty := by
  have hobj : ∀ addr, s.commitObjects.stateObjects addr = none ↔ s.stateObjects addr = none :=
    fun addr => changeAt_eq_none
  have he' : s.commitObjects.journal.entries = [] := he
  refine ⟨⟨fun addr obj => wf_changeAt (fun hw => (view_commitLive hw).2) h.objects,
    fun addr hm hn => h.pending addr hm ((hobj addr).mp hn), by simp [commitObjects], by simp [he'],
    by simp [he', Slotted], h.dirties, fun addr hm => ?_⟩, ?_, rfl, rfl⟩
  · exact (h.cached addr hm).imp_left fun hc hn => hc ((hobj addr).mp hn)
  · refine Ledger.ext rfl (funext fun addr => ?_) rfl ?_ rfl rfl rfl rfl rfl rfl rfl rfl rfl
    · simp only [Ledger.settleDirty]
      by_cases hm : addr ∈ s.stateObjectsDirty
      · obtain ⟨obj, ho⟩ := Option.ne_none_iff_exists'.mp (h.dirty addr hm)
        have hm' : addr ∈ s.ledger.dirty := hm
        rw [if_pos hm']
        simp only [ledger, peek, commitObjects, if_pos hm, ho, Option.map_some,
          (view_commitLive (h.objects addr obj ho).2).1]
      · have hm' : addr ∉ s.ledger.dirty := hm
        rw [if_neg hm']
        simp only [ledger, peek, commitObjects, if_neg hm]
    · simp [ledger, commitObjects, Ledger.settleDirty]

theorem commit_cases (h : s.WF) (b : Bool) : s.commit b = none ∧ s.ledger.commit b = none ∨
      ∃ root s' l, s.commit b = some (root, s') ∧ s.ledger.commit b = some (root, l) ∧
        Roots s s' root l := by
  unfold commit Ledger.commit
  obtain ⟨hs, hl⟩ | ⟨root, s1, l1, hs, hl, hr⟩ := intermediateRoot_cases h b
  · exact .inl ⟨by rw [hs]; rfl, by rw [hl]; rfl⟩
  · have hany : ¬ (s1.stateObjectsDirty.any fun addr => (s1.stateObjects addr).isNone) = true := by
      rw [any_eq_true]
      rintro ⟨addr, hm, hn⟩
      exact hr.wf.dirty addr hm (Option.isNone_iff_eq_none.mp hn)
    have hd := does_commitObjects hr.wf hr.entries
    refine .inr ⟨root, s1.commitObjects, l1.settleDirty, ?_, by rw [hl]; rfl, hd.wf, ?_, hr.root,
      hr.entries, hr.revisions, hr.nextRevision⟩
    · rw [hs, Option.bind_eq_bind, Option.bind_some, hr.root]
      exact if_neg hany
    · rw [hd.ledger, hr.ledger]

theorem copy_eq (h : s.WF) :
    ∃ s', s.copy = some s' ∧ s'.WF ∧ s'.ledger = s.ledger.copy ∧ s'.validRevisions = [] ∧
      s'.nextRevisionId = 0 := by
  have hany : ¬ ((s.stateObjectsPending ++ s.stateObjectsDirty).any
      fun addr => (s.stateObjects addr).isNone) = true := by
    rw [any_eq_true]
    rintro ⟨addr, hm, hn⟩
    have hnone := Option.isNone_iff_eq_none.mp hn
    rcases mem_append.mp hm with hm | hm
    · exact h.pending addr hm hnone
    · exact h.dirty addr hm hnone
  have hkept : ∀ {l : List Address}, (∀ addr ∈ l, s.stateObjects addr ≠ none) →
      (∀ addr ∈ l, addr ∈ s.journal.dirties ++ s.stateObjectsPending ++ s.stateObjectsDirty) →
      ∀ addr ∈ s.dirtyObjects ++ l,
        (if addr ∈ s.journal.dirties ++ s.stateObjectsPending ++ s.stateObjectsDirty then
          (s.stateObjects addr).map deepCopy else none) ≠ none := by
    intro l hobj hmem addr hm
    have hcopied : addr ∈ s.journal.dirties ++ s.stateObjectsPending ++ s.stateObjectsDirty ∧
        s.stateObjects addr ≠ none := by
      rcases mem_append.mp hm with hm | hm
      · have hd : addr ∈ s.journal.dirties := (mem_filter.mp hm).1
        exact ⟨by simp [hd], cached_dirtyObjects hm⟩
      · exact ⟨hmem addr hm, hobj addr hm⟩
    rw [if_pos hcopied.1]
    simpa using hcopied.2
  refine ⟨_, if_neg hany, ⟨fun addr obj ho => ?_, hkept h.pending fun addr hm => by simp [hm],
    hkept h.dirty fun addr hm => by simp [hm], by simp, trivial, ⟨0, by simp⟩, by simp⟩,
    ?_, rfl, rfl⟩
  · dsimp only at ho
    split at ho
    · obtain ⟨o, ho', rfl⟩ := Option.map_eq_some_iff.mp ho
      rw [deepCopy_eq]
      exact h.objects addr o ho'
    · cases ho
  · refine Ledger.ext rfl (funext fun addr => ?_) ?_ ?_ rfl rfl rfl rfl rfl rfl rfl rfl rfl
    · have hmem : addr ∈ s.journal.dirties ++ s.stateObjectsPending ++ s.stateObjectsDirty ↔
          s.ledger.Changed addr ∨ addr ∈ s.ledger.pending ∨ addr ∈ s.ledger.dirty := by
        rw [mem_append, mem_append, mem_dirties h, or_assoc]
        rfl
      have hread : ((s.trie addr).map (newObject addr)).map view =
          (s.trie addr).map View.ofAccount := by
        rw [Option.map_map]
        rfl
      simp only [Ledger.copy, ← hmem]
      simp only [ledger, peek]
      by_cases hm : addr ∈ s.journal.dirties ++ s.stateObjectsPending ++ s.stateObjectsDirty
      · rw [if_pos hm, if_pos hm]
        cases s.stateObjects addr with
        | none => rfl
        | some obj => simp [deepCopy_eq]
      · rw [if_neg hm, if_neg hm]
        exact hread
    all_goals
      ext addr
      simp [ledger, Ledger.copy, mem_dirtyObjects h]

end GethComments.State.StateDB
