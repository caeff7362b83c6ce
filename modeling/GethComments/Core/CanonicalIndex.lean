import GethComments.Core.BlockTree

/-!
# The canonical index

What the blocks of a tree, written in any order, leave in the canonical hashes and in the
lookup entries of transactions.

* `Parts.holds_reorg`, `Parts.clear_reorg`: what `reorg` leaves for the new head;
* `Tracks.write`: the index holds the ancestry of the head before and after a write;
* `canonical_index`: the index over whole runs, with the one kind of write after which
  canonical hashes stay above the head.
-/

namespace GethComments

open Function List Block

namespace BlockChain

variable [HashFns] {g : Block} {T : Set Block} {bc : BlockChain}

/-! ## Writing heads -/

/-- The number of the last block of a branch that includes the transaction. -/
def includedIn (bs : List Block) (h : Hash) : Option Nat :=
  (bs.find? fun b => h ∈ b.txHashes).map fun b => b.header.number

theorem includedIn_append (bs cs : List Block) (h : Hash) :
    includedIn (bs ++ cs) h = (includedIn bs h).or (includedIn cs h) := by
  simp [includedIn, find?_append, Option.map_or]

theorem includedIn_cons (b : Block) (bs : List Block) (h : Hash) : includedIn (b :: bs) h =
      if h ∈ b.txHashes then some b.header.number else includedIn bs h := by
  by_cases hb : h ∈ b.txHashes <;> simp [includedIn, hb]

variable {bs : List Block} {i : UInt64} {b p : Block} {bc' : BlockChain}

theorem includedIn_eq_none {h : Hash} : includedIn bs h = none ↔ ∀ b ∈ bs, h ∉ b.txHashes := by
  simp [includedIn]

omit [HashFns] in
theorem foldl_update_apply {α β : Type*} (f : α → Hash) (v : β) (xs : List α) (m : Hash → β)
    (k : Hash) :
    xs.foldl (fun m x => update m (f x) v) m k = if k ∈ xs.map f then v else m k := by
  induction xs generalizing m with
  | nil => simp
  | cons x xs ih =>
    rw [foldl_cons, ih]
    by_cases hk : k = f x
    · simp [hk]
    · simp [hk]

theorem txLookup_writeHeadBlock (bc : BlockChain) (b : Block) (h : Hash) :
    (bc.writeHeadBlock b).txLookup h =
      if h ∈ b.txHashes then some b.header.number else bc.txLookup h := by
  rw [txHashes, ← foldl_update_apply]
  unfold writeHeadBlock
  simp only [writeTxLookupEntries]
  split <;> rfl

/-- The blocks, latest first, are written as heads from the earliest on. -/
def writeHeads (bc : BlockChain) (bs : List Block) : BlockChain :=
  bs.foldr (fun b bc => bc.writeHeadBlock b) bc

theorem blocks_writeHeads (bc : BlockChain) (bs : List Block) :
    (bc.writeHeads bs).blocks = bc.blocks := by
  induction bs with
  | nil => rfl
  | cons b bs ih => exact (fields_writeHeadBlock _ b).2.1.trans ih

theorem txLookup_writeHeads (bc : BlockChain) (bs : List Block) (h : Hash) :
    (bc.writeHeads bs).txLookup h = (includedIn bs h).or (bc.txLookup h) := by
  induction bs with
  | nil => rfl
  | cons b bs ih =>
    rw [writeHeads, foldr_cons, txLookup_writeHeadBlock, includedIn_cons]
    split
    · rfl
    · exact ih

theorem canonical_writeHeads_of_ne (bc : BlockChain) (hi : ∀ b ∈ bs, b.numberU64 ≠ i) :
    (bc.writeHeads bs).canonical i = bc.canonical i := by
  induction bs with
  | nil => rfl
  | cons b bs ih =>
    rw [writeHeads, foldr_cons, (fields_writeHeadBlock _ b).2.2.1,
      update_of_ne (hi b mem_cons_self).symm]
    exact ih fun c hc => hi c (mem_cons_of_mem _ hc)

/-- The canonical hashes and the lookup entries are those of the branch, as far as it goes. -/
structure Holds (bc : BlockChain) (bs : List Block) : Prop where
  canonical : ∀ b ∈ bs, bc.canonical b.numberU64 = some b.hash
  lookup : ∀ h, bc.txLookup h = includedIn bs h

theorem Holds.writeHeadBlock (h : bc.Holds bs) (hb : ∀ a ∈ bs, a.numberU64 = b.numberU64 → a = b) :
    (bc.writeHeadBlock b).Holds (b :: bs) where
  canonical a ha := by
    rw [(fields_writeHeadBlock bc b).2.2.1]
    by_cases hab : a = b
    · rw [hab, update_self]
    · have ha' : a ∈ bs := (mem_cons.mp ha).resolve_left hab
      rw [update_of_ne fun hn => hab (hb a ha' hn)]
      exact h.canonical a ha'
  lookup k := by rw [txLookup_writeHeadBlock, includedIn_cons, h.lookup]

/-! ## Reorganisation -/

theorem reorg_eq {old new : Block} {oldChain newChain : List Block}
    (h : bc.reorgChains old new = .ok (oldChain, newChain)) :
    bc.reorg old new = .ok (((bc.writeHeads newChain.tail).deleteTxLookupEntries
      (txDifference (oldChain.flatMap transactions)
        (newChain.tail.reverse.flatMap transactions))).deleteCanonicalAbove
          (bc.writeHeads newChain.tail).currentBlock.numberU64) := by
  unfold reorg
  rw [h]
  simp only [foldl_reverse]
  rfl

theorem lookup_reorg {oldChain newChain common : List Block}
    (hbc : ∀ h, bc.txLookup h = includedIn (oldChain ++ common) h)
    (hdis : ∀ x ∈ oldChain, ∀ a ∈ common, a.txHashes.Disjoint x.txHashes) (h : Hash) :
    ((bc.writeHeads newChain).deleteTxLookupEntries
      (txDifference (oldChain.flatMap transactions)
        (newChain.reverse.flatMap transactions))).txLookup h =
      includedIn (newChain ++ common) h := by
  have hmem : ∀ bs : List Block, h ∈ (bs.flatMap transactions).map Transaction.hash ↔
      ∃ b ∈ bs, h ∈ b.txHashes := by
    intro bs
    simp [txHashes, map_flatMap]
  have hadd : (∃ b ∈ newChain.reverse, h ∈ b.txHashes) ↔ includedIn newChain h ≠ none := by
    simp [includedIn_eq_none]
  have hdel : h ∈ (txDifference (oldChain.flatMap transactions)
      (newChain.reverse.flatMap transactions)).map Transaction.hash ↔
      (∃ b ∈ oldChain, h ∈ b.txHashes) ∧ includedIn newChain h = none := by
    rw [← hmem oldChain, ← not_ne_iff, ← hadd, ← hmem]
    simp only [txDifference, mem_map, mem_filter, decide_eq_true_eq]
    constructor
    · rintro ⟨tx, ⟨htx, hno⟩, rfl⟩
      exact ⟨⟨tx, htx, rfl⟩, hno⟩
    · rintro ⟨⟨tx, htx, rfl⟩, hno⟩
      exact ⟨tx, ⟨htx, hno⟩, rfl⟩
  rw [deleteTxLookupEntries]
  simp only [foldl_update_apply, txLookup_writeHeads, hbc, includedIn_append]
  cases hnew : includedIn newChain h with
  | some n => simp [hdel, hnew]
  | none =>
    by_cases hold : ∃ b ∈ oldChain, h ∈ b.txHashes
    · -- a transaction of the old branch is not one of the common part
      obtain ⟨x, hx, hxh⟩ := hold
      have hcom : includedIn common h = none :=
        includedIn_eq_none.mpr fun a ha hah => hdis x hx a ha hah hxh
      simp [hdel, hnew, hcom]
      exact fun hno => absurd hxh (hno x hx)
    · have hnone : includedIn oldChain h = none := by
        rw [includedIn_eq_none]
        exact fun b hb hbh => hold ⟨b, hb, hbh⟩
      simp [hdel, hnew, hold, hnone]

theorem tds_writeHeads (bc : BlockChain) (bs : List Block) : (bc.writeHeads bs).tds = bc.tds := by
  induction bs with
  | nil => rfl
  | cons b bs ih => exact (fields_writeHeadBlock _ b).2.2.2.2.trans ih

theorem currentBlock_writeHeads (bc : BlockChain) (bs : List Block) :
    (bc.writeHeads bs).currentBlock = bs.head?.getD bc.currentBlock := by
  cases bs with
  | nil => rfl
  | cons b bs => exact (fields_writeHeadBlock _ b).1

theorem canonical_writeHeads {cs : List Block}
    (hbc : ∀ b ∈ cs, bc.canonical b.numberU64 = some b.hash)
    (hne : (bs ++ cs).Pairwise fun a b => b.numberU64 ≠ a.numberU64) :
    ∀ b ∈ bs ++ cs, (bc.writeHeads bs).canonical b.numberU64 = some b.hash := by
  induction bs with
  | nil => exact hbc
  | cons a bs ih =>
    intro b hb
    obtain ⟨ha, hne⟩ := pairwise_cons.mp hne
    rw [writeHeads, foldr_cons, (fields_writeHeadBlock _ a).2.2.1]
    rcases mem_cons.mp hb with rfl | hb
    · rw [update_self]
    · rw [update_of_ne (ha b hb)]
      exact ih hne b hb

theorem Branch.pairwise_numberU64 (hT : ValidTree g T) (hb : b ∈ T) (h : Branch g T b bs) :
    bs.Pairwise fun a b => b.numberU64 ≠ a.numberU64 := by
  apply (h.pairwise_level fun _ _ h => h.2).imp_of_mem
  intro x y hx hy hlt heq
  rw [hT.numberU64_inj (h.mem hb hy) (h.mem hb hx)] at heq
  omega

omit [HashFns] in
theorem canonical_deleteCanonicalAbove_of_le (bc : BlockChain) {n : UInt64} (h : i ≤ n) :
    (bc.deleteCanonicalAbove n).canonical i = bc.canonical i := by
  have hno : reachesIndex bc.canonical n i = false := by
    have : ¬ n < i := UInt64.not_lt.mpr h
    simp [reachesIndex, this]
  simp [deleteCanonicalAbove, hno]

omit [HashFns] in
theorem canonical_deleteCanonicalAbove_of_lt {n : UInt64} (m : UInt64)
    (hsome : ∀ j, n < j → j ≤ m → (bc.canonical j).isSome)
    (hnone : ∀ j, n < j → m < j → bc.canonical j = none) (hi : n < i) :
    (bc.deleteCanonicalAbove n).canonical i = none := by
  rw [deleteCanonicalAbove]
  by_cases hle : i ≤ m
  · refine if_pos ?_
    simp only [reachesIndex, Bool.and_eq_true, decide_eq_true_eq, all_eq_true, mem_range]
    refine ⟨hi, fun d hd => ?_⟩
    have hlt := UInt64.lt_iff_toNat_lt.mp hi
    rw [UInt64.toNat_sub_of_le _ _ (UInt64.le_of_lt hi)] at hd
    have hnum : (n + 1 + UInt64.ofNat d).toNat = n.toNat + 1 + d := by
      have := i.toNat_lt
      simp only [UInt64.toNat_add, UInt64.toNat_ofNat', UInt64.toNat_one]
      omega
    rw [UInt64.le_iff_toNat_le] at hle
    apply hsome
    · rw [UInt64.lt_iff_toNat_lt, hnum]
      omega
    · rw [UInt64.le_iff_toNat_le, hnum]
      omega
  · simp [hnone i hi (UInt64.not_le.mp hle)]

/-- What the parting of the branches of the head and of a new block is. -/
structure Parts (g : Block) (T : Set Block) (bc : BlockChain) (new : Block)
    (oldChain newChain common : List Block) : Prop where
  chains : bc.reorgChains bc.currentBlock new = .ok (oldChain, newChain)
  old_mem : bc.currentBlock ∈ T
  new_mem : new ∈ T
  old_branch : Branch g T bc.currentBlock (oldChain ++ common)
  new_branch : Branch g T new (newChain ++ common)

variable {new : Block} {oldChain newChain common : List Block}

theorem Parts.head_mem (hP : Parts g T bc new oldChain newChain common) :
    (bc.writeHeads newChain.tail).currentBlock ∈ T := by
  rw [currentBlock_writeHeads]
  cases h : newChain.tail.head? with
  | none => exact hP.old_mem
  | some x =>
    have hx : x ∈ newChain := mem_of_mem_tail (mem_of_mem_head? h)
    exact hP.new_branch.mem hP.new_mem (mem_append_left _ hx)

theorem Parts.number_le (hP : Parts g T bc new oldChain newChain common)
    (hb : b ∈ newChain.tail ++ common) :
    b.header.number ≤ (bc.writeHeads newChain.tail).currentBlock.header.number := by
  rw [currentBlock_writeHeads]
  cases newChain with
  | nil => exact hP.old_branch.number_le (mem_append_right _ hb)
  | cons a init =>
    cases init with
    | nil => exact hP.old_branch.number_le (mem_append_right _ hb)
    | cons x xs =>
      have hx : Branch g T new ([a] ++ x :: (xs ++ common)) := by simpa using hP.new_branch
      exact Branch.number_le hx.of_append hb

omit [HashFns] in
theorem sublist_tail_append (newChain common : List Block) :
    (newChain.tail ++ common).Sublist (newChain ++ common) :=
  (tail_sublist newChain).append (List.Sublist.refl common)

section

variable (hT : ValidTree g T) (hP : Parts g T bc new oldChain newChain common)
  (hbc : bc.Holds (oldChain ++ common))
include hT hP hbc

/-- After a reorganisation the index is that of the new branch without its head. -/
theorem Parts.holds_reorg :
    ∃ bc', bc.reorg bc.currentBlock new = .ok bc' ∧ bc'.blocks = bc.blocks ∧ bc'.tds = bc.tds ∧
      bc'.Holds (newChain.tail ++ common) := by
  refine ⟨_, reorg_eq hP.chains, blocks_writeHeads bc _, tds_writeHeads bc _, ?_, ?_⟩
  · intro b hb
    have hbT : b ∈ T := hP.new_branch.mem hP.new_mem
      ((sublist_tail_append newChain common).subset hb)
    have hne := (hP.new_branch.pairwise_numberU64 hT hP.new_mem).sublist
      (sublist_tail_append newChain common)
    have hle : b.numberU64 ≤ (bc.writeHeads newChain.tail).currentBlock.numberU64 := by
      rw [← UInt64.not_lt, hT.numberU64_lt hP.head_mem hbT]
      exact Nat.not_lt.mpr (hP.number_le hb)
    rw [canonical_deleteCanonicalAbove_of_le _ hle]
    exact canonical_writeHeads
      (fun b hb => hbc.canonical b (mem_append_right _ hb)) hne b hb
  · exact lookup_reorg hbc.lookup fun x hx a ha =>
      hP.old_branch.disjoint hT hP.old_mem hx ha

/-- The canonical hashes above the last block written by a reorganisation are deleted, if there
were none above the old head: every number up to it is assigned. -/
theorem Parts.clear_reorg
    (hclear : ∀ i, bc.currentBlock.numberU64 < i → bc.canonical i = none)
    (hr : bc.reorg bc.currentBlock new = .ok bc')
    (hi : (bc.writeHeads newChain.tail).currentBlock.numberU64 < i) : bc'.canonical i = none := by
  obtain rfl := Except.ok.inj ((reorg_eq hP.chains).symm.trans hr)
  have hsame : ∀ j, (bc.writeHeads newChain.tail).currentBlock.numberU64 < j →
      (bc.writeHeads newChain.tail).canonical j = bc.canonical j := by
    intro j hj
    apply canonical_writeHeads_of_ne
    rintro b hb rfl
    have hb' : b ∈ newChain.tail ++ common := mem_append_left _ hb
    have hbT : b ∈ T :=
      hP.new_branch.mem hP.new_mem ((sublist_tail_append newChain common).subset hb')
    rw [hT.numberU64_lt hP.head_mem hbT] at hj
    exact absurd (hP.number_le hb') (Nat.not_le.mpr hj)
  apply canonical_deleteCanonicalAbove_of_lt bc.currentBlock.numberU64 _ _ hi
  · intro j hj hle
    rw [UInt64.le_iff_toNat_le, hT.toNat_numberU64 hP.old_mem] at hle
    obtain ⟨a, ha, hn⟩ := hP.old_branch.exists_level hT.isTree hle
    have haT : a ∈ T := hP.old_branch.mem hP.old_mem ha
    have hj' : a.numberU64 = j := by rw [← UInt64.toNat_inj, hT.toNat_numberU64 haT, hn]
    have hcan : (bc.writeHeads newChain.tail).canonical j = some a.hash := by
      rw [hsame j hj, ← hj', hbc.canonical a ha]
    exact Option.isSome_of_eq_some hcan
  · intro j hj hlt
    exact (hsame j hj).trans (hclear j hlt)

end

/-! ## Writing a block -/

theorem tds_storeBlock (bc : BlockChain) (b : Block) (td : Nat) (n : UInt64) (h : Hash) :
    (bc.storeBlock b td).tds n h =
      if n = b.numberU64 ∧ h = b.hash then some td else bc.tds n h := by
  simp only [storeBlock, writeBlock, update_apply]
  grind

theorem Stored.exists_parent (hS : Stored g T bc) (hT : ValidTree g T) (hb : b ∈ T)
    (h : (bc.getTd b.parentHash (b.numberU64 - 1)).isSome) :
    ∃ p ∈ T, b.ChildOf p ∧ bc.Has p := by
  obtain ⟨p, hp⟩ := Option.isSome_iff_exists.mp (hS.td _ _ h)
  obtain ⟨hpT, hn, hh⟩ := hS.mem _ _ _ hp
  rw [hn, hh] at hp
  by_cases hg : b = g
  · -- no block has the number below 0
    have h1 := hT.toNat_numberU64 hpT
    have h2 := hT.number p hpT
    rw [← hn, hg, numberU64, hT.number_genesis] at h1
    have h3 : (UInt64.ofNat 0 - 1).toNat = 2 ^ 64 - 1 := by decide
    omega
  · obtain ⟨q, hq, hc⟩ := hT.parent b hb hg
    obtain rfl := hT.eq_of_hash q hq p hpT (hc.1.symm.trans hh)
    exact ⟨q, hq, hc, hp⟩

theorem Has.storeBlock {a : Block} (hT : ValidTree g T) (ha : a ∈ T) (hb : b ∈ T) (h : bc.Has a)
    (td : Nat) : (bc.storeBlock b td).Has a := by
  rw [Has, blocks_storeBlock]
  by_cases hab : a.numberU64 = b.numberU64 ∧ a.hash = b.hash
  · rw [if_pos hab, hT.eq_of_hash a ha b hb hab.2]
  · rw [if_neg hab]
    exact h

theorem has_storeBlock (bc : BlockChain) (b : Block) (td : Nat) : (bc.storeBlock b td).Has b := by
  rw [Has, blocks_storeBlock, if_pos ⟨rfl, rfl⟩]

theorem Stored.storeBlock (hS : Stored g T bc) (hT : ValidTree g T) (hb : b ∈ T) (hp : p ∈ T)
    (hc : b.ChildOf p) (hpS : bc.Has p) (td : Nat) :
    Stored g T (bc.storeBlock b td) where
  mem n h a ha := by
    rw [blocks_storeBlock] at ha
    split at ha
    · rename_i hk
      cases ha
      exact ⟨hb, hk⟩
    · exact hS.mem n h a ha
  parent a ha q hq hac := by
    by_cases hab : a = b
    · obtain rfl := hT.eq_of_hash q hq p hp (hac.1.symm.trans (hab ▸ hc.1))
      exact hpS.storeBlock hT hq hb td
    · have ha' : bc.Has a := by
        rw [Has, blocks_storeBlock] at ha
        split at ha
        · exact absurd (Option.some.inj ha).symm hab
        · exact ha
      exact (hS.parent a ha' q hq hac).storeBlock hT hq hb td
  td n h := by
    rw [blocks_storeBlock, tds_storeBlock]
    split
    · simp
    · exact hS.td n h

/-- The stored blocks are of the tree, and the index is that of the branch of the head. -/
structure Tracks (g : Block) (T : Set Block) (bc : BlockChain) : Prop where
  stored : Stored g T bc
  head : bc.Has bc.currentBlock
  index : ∀ bs, Branch g T bc.currentBlock bs → bc.Holds bs

def Clear (bc : BlockChain) : Prop := ∀ i, bc.currentBlock.numberU64 < i → bc.canonical i = none

theorem Tracks.storeBlock (h : Tracks g T bc) (hT : ValidTree g T) (hb : b ∈ T) (hp : p ∈ T)
    (hc : b.ChildOf p) (hpS : bc.Has p) (td : Nat) :
    Tracks g T (bc.storeBlock b td) where
  stored := h.stored.storeBlock hT hb hp hc hpS td
  head := h.head.storeBlock hT (h.stored.mem_tree h.head) hb td
  index bs hbs := ⟨(h.index bs hbs).canonical, (h.index bs hbs).lookup⟩

theorem Stored.congr (h : Stored g T bc) (hblocks : bc'.blocks = bc.blocks)
    (htds : bc'.tds = bc.tds) : Stored g T bc' := by
  refine ⟨?_, ?_, ?_⟩
  · rw [hblocks]
    exact h.mem
  · simp only [Has, hblocks]
    exact h.parent
  · rw [hblocks, htds]
    exact h.td

theorem Tracks.congr (h : Tracks g T bc) (hblocks : bc'.blocks = bc.blocks)
    (htds : bc'.tds = bc.tds) (hhead : bc'.currentBlock = bc.currentBlock)
    (hcan : bc'.canonical = bc.canonical) (hlook : bc'.txLookup = bc.txLookup) :
    Tracks g T bc' where
  stored := h.stored.congr hblocks htds
  head := by
    rw [Has, hblocks, hhead]
    exact h.head
  index bs hbs := by
    rw [hhead] at hbs
    refine ⟨?_, ?_⟩
    · rw [hcan]
      exact (h.index bs hbs).canonical
    · rw [hlook]
      exact (h.index bs hbs).lookup

theorem Tracks.writeHeadBlock (h : Tracks g T bc) (hT : ValidTree g T) (hb : bc.Has b)
    (hblocks : bc'.blocks = bc.blocks) (htds : bc'.tds = bc.tds) (hbs : bc'.Holds bs)
    (hbranch : Branch g T b (b :: bs) ∨ Branch g T b bs) : Tracks g T (bc'.writeHeadBlock b) := by
  obtain ⟨hcur, hbl, -, -, htd⟩ := fields_writeHeadBlock bc' b
  have hblocks' : (bc'.writeHeadBlock b).blocks = bc.blocks := hbl.trans hblocks
  refine ⟨h.stored.congr hblocks' (htd.trans htds), ?_, ?_⟩
  · rw [Has, hblocks', hcur]
    exact hb
  · intro cs hcs
    rw [hcur] at hcs
    have hbT : b ∈ T := h.stored.mem_tree hb
    rcases hbranch with hbranch | hbranch
    · obtain rfl := hbranch.unique hT.isTree hcs
      apply hbs.writeHeadBlock
      intro a ha hn
      rw [hT.numberU64_inj (hbranch.mem hbT (mem_cons_of_mem _ ha)) hbT] at hn
      exact absurd hn (hbranch.number_lt ha).ne
    · obtain rfl := hbranch.unique hT.isTree hcs
      obtain ⟨rest, rfl⟩ := hbranch.eq_cons
      have hw : (bc'.writeHeadBlock b).Holds (b :: b :: rest) := by
        apply hbs.writeHeadBlock
        intro a ha hn
        rcases mem_cons.mp ha with rfl | ha'
        · rfl
        · rw [hT.numberU64_inj (hbranch.mem hbT ha) hbT] at hn
          exact absurd hn (hbranch.number_lt ha').ne
      refine ⟨fun a ha => hw.canonical a (mem_cons_of_mem _ ha), fun k => ?_⟩
      rw [hw.lookup, includedIn_cons, includedIn_cons]
      split <;> rfl

theorem Tracks.exists_parts (h : Tracks g T bc) (hT : ValidTree g T) (hb : bc.Has b) :
    ∃ oldChain newChain common, Parts g T bc b oldChain newChain common := by
  have hcT := h.stored.mem_tree h.head
  have hbT := h.stored.mem_tree hb
  obtain ⟨os, hos⟩ := hT.isTree.exists_lineage hcT
  obtain ⟨ns, hns⟩ := hT.isTree.exists_lineage hbT
  obtain ⟨oc, nc, c, common, hchains, rfl, rfl⟩ := h.stored.reorgChains_eq hT h.head hb hos hns
  exact ⟨oc, nc, c :: common, hchains, hcT, hbT, hos, hns⟩

theorem Parts.branch_cases (hP : Parts g T bc new oldChain newChain common) :
    Branch g T new (new :: (newChain.tail ++ common)) ∨
      newChain = [] ∧ Branch g T new (newChain.tail ++ common) := by
  cases newChain with
  | nil => exact .inr ⟨rfl, hP.new_branch⟩
  | cons a init =>
    obtain ⟨rest, heq⟩ := hP.new_branch.eq_cons
    obtain ⟨rfl, -⟩ := cons.inj heq
    exact .inl hP.new_branch

theorem Parts.parent_canonical (hT : ValidTree g T) (hP : Parts g T bc new oldChain newChain common)
    (hbc : bc.Holds (oldChain ++ common)) (hp : p ∈ T) (hc : new.ChildOf p)
    (htail : newChain.tail = []) :
    bc.canonical (new.numberU64 - 1) = some new.parentHash := by
  have hpc : p ∈ common := by
    rcases hP.branch_cases with hbr | ⟨-, hbr⟩
    · rw [htail, nil_append] at hbr
      obtain ⟨rest, rfl⟩ := (hbr.parent hT hp hc).eq_cons
      exact mem_cons_self
    · rw [htail, nil_append] at hbr
      obtain ⟨rest, rfl⟩ := hbr.eq_cons
      obtain ⟨rest', rfl⟩ := (hbr.parent hT hp hc).eq_cons
      exact mem_cons_of_mem _ mem_cons_self
  rw [numberU64_sub_one hc.2, hc.1]
  exact hbc.canonical p (mem_append_right _ hpc)

theorem Clear.writeHeadBlock (h : ∀ i, b.numberU64 < i → bc.canonical i = none) :
    (bc.writeHeadBlock b).Clear := by
  obtain ⟨hcur, -, hcan, -⟩ := fields_writeHeadBlock bc b
  intro i hi
  rw [hcur] at hi
  have hne : i ≠ b.numberU64 := by
    rintro rfl
    exact UInt64.lt_irrefl _ hi
  rw [hcan, update_of_ne hne]
  exact h i hi

/-- The block is below the head and its parent is canonical: if it becomes the head, the branch of
the old one is longer than the one block that takes its place. -/
def Below (bc : BlockChain) (b : Block) : Prop :=
  b.header.number < bc.currentBlock.header.number ∧
    bc.canonical (b.numberU64 - 1) = some b.parentHash

theorem Tracks.reorg (h : Tracks g T bc) (hT : ValidTree g T) (hb : bc.Has b) (hp : p ∈ T)
    (hc : b.ChildOf p) :
    ∃ bc', bc.reorg bc.currentBlock b = .ok bc' ∧ Tracks g T (bc'.writeHeadBlock b) ∧
      (bc.Clear → ¬ bc.Below b → (bc'.writeHeadBlock b).Clear) := by
  obtain ⟨oldChain, newChain, common, hP⟩ := h.exists_parts hT hb
  have hold := h.index _ hP.old_branch
  obtain ⟨bc', hr, hblocks, htds, hholds⟩ := hP.holds_reorg hT hold
  refine ⟨bc', hr, h.writeHeadBlock hT hb hblocks htds hholds
    (hP.branch_cases.imp_right And.right), fun hclear hd => ?_⟩
  have hle : (bc.writeHeads newChain.tail).currentBlock.header.number ≤ b.header.number := by
    rw [currentBlock_writeHeads]
    cases htail : newChain.tail with
    | nil =>
      by_contra hlt
      exact hd ⟨Nat.not_le.mp hlt, hP.parent_canonical hT hold hp hc htail⟩
    | cons x xs =>
      have hx : x ∈ newChain := mem_of_mem_tail (htail ▸ mem_cons_self)
      exact hP.new_branch.number_le (mem_append_left _ hx)
  apply Clear.writeHeadBlock
  intro i hi
  apply hP.clear_reorg hT hold hclear hr
  rw [UInt64.lt_iff_toNat_lt, hT.toNat_numberU64 hP.new_mem] at hi
  rw [UInt64.lt_iff_toNat_lt, hT.toNat_numberU64 hP.head_mem]
  omega

omit [HashFns] in
theorem le_of_shouldReorg {externTd localTd : Nat} {coin : Bool}
    (h : bc.shouldReorg externTd localTd b coin = true) : localTd ≤ externTd := by
  unfold shouldReorg at h
  grind

theorem Tracks.updateHead (h : Tracks g T bc) (hT : ValidTree g T) (hb : bc.Has b) (hp : p ∈ T)
    (hc : b.ChildOf p) (externTd localTd : Nat) (coin : Bool) :
    let r := bc.updateHead externTd localTd b coin
    Tracks g T r.1 ∧ (bc.Clear → (localTd ≤ externTd → ¬ bc.Below b) → r.1.Clear) := by
  unfold BlockChain.updateHead
  split
  case isTrue hreorg =>
    split
    · obtain ⟨bc', hr, ht, hclear⟩ := h.reorg hT hb hp hc
      rw [hr]
      exact ⟨ht.congr rfl rfl rfl rfl rfl, fun h0 hd => hclear h0 (hd (le_of_shouldReorg hreorg))⟩
    · rename_i hpar
      have hpc : p = bc.currentBlock := by
        apply hT.eq_of_hash p hp _ (h.stored.mem_tree h.head)
        rw [← hc.1]
        exact not_not.mp hpar
      subst hpc
      obtain ⟨bs, hbs⟩ := hT.isTree.exists_lineage hp
      have hw := h.writeHeadBlock hT hb rfl rfl (h.index bs hbs) (.inl (.child hp hc hbs))
      refine ⟨hw.congr rfl rfl rfl rfl rfl, fun hclear _ => ?_⟩
      apply Clear.writeHeadBlock
      intro i hi
      apply hclear i
      refine UInt64.lt_trans ?_ hi
      rw [hT.numberU64_lt hp (h.stored.mem_tree hb), hc.2]
      omega
  case isFalse => exact ⟨h.congr rfl rfl rfl rfl rfl, fun hclear _ => hclear⟩

/-- A block below the head, whose parent is canonical, has no smaller total difficulty than the
head: the branch of the head is longer than the one block that takes its place. -/
def DropsTail (bc : BlockChain) (w : BlockWrite) : Prop :=
  w.commit.isSome = true ∧
    (bc.getTd w.block.parentHash (w.block.numberU64 - 1)).any (fun ptd =>
      (bc.getTd bc.currentBlock.hash bc.currentBlock.numberU64).getD 0 ≤
        w.block.difficulty + ptd) = true ∧
    bc.Below w.block

instance (bc : BlockChain) (w : BlockWrite) : Decidable (bc.DropsTail w) :=
  inferInstanceAs (Decidable (_ ∧ _ ∧ _ ∧ _))

/-- **Step lemma.** The index is that of the head's branch after each write, and nothing is above
the head unless the write drops a longer branch. -/
theorem Tracks.write (h : Tracks g T bc) (hT : ValidTree g T) {w : BlockWrite}
    (hw : w.block ∈ T) : Tracks g T (bc.writeBlockWithState w).1 ∧
      (bc.Clear → ¬ bc.DropsTail w → (bc.writeBlockWithState w).1.Clear) := by
  cases htd : bc.getTd w.block.parentHash (w.block.numberU64 - 1) with
  | none =>
    simp only [writeBlockWithState, htd]
    exact ⟨h, fun hclear _ => hclear⟩
  | some ptd =>
    obtain ⟨p, hp, hc, hpS⟩ := h.stored.exists_parent hT hw (Option.isSome_of_eq_some htd)
    have hs := h.storeBlock hT hw hp hc hpS (w.block.difficulty + ptd)
    simp only [writeBlockWithState, htd]
    cases hroot : w.commit with
    | none => exact ⟨hs, fun hclear _ => hclear⟩
    | some root =>
      have hs' : Tracks g T ((bc.storeBlock w.block (w.block.difficulty + ptd)).commitState root
          w.state w.pruned) := hs.congr rfl rfl rfl rfl rfl
      obtain ⟨ht, hclear⟩ := hs'.updateHead hT
        (has_storeBlock bc w.block (w.block.difficulty + ptd)) hp hc _ _ w.coin
      refine ⟨ht, fun h0 hd => hclear h0 fun hle hbelow => hd ⟨?_, ?_, hbelow⟩⟩
      · rw [hroot]
        rfl
      · rw [htd]
        exact decide_eq_true hle

/-! ## Runs -/

def writeBlocks (bc : BlockChain) (ws : List BlockWrite) : BlockChain :=
  ws.foldl (fun bc w => (bc.writeBlockWithState w).1) bc

/-- The ancestor of the head at a height. -/
def headAncestor (bc : BlockChain) (i : Nat) : Option Block :=
  (bc.stepBack (bc.currentBlock.header.number - i) bc.currentBlock).map Prod.snd

theorem tracks_genesisChain (hT : ValidTree g T) (st : StateDB)
    (preserve : Option (Block → Bool)) : Tracks g T (genesisChain g st preserve) := by
  have hhas : (genesisChain g st preserve).Has g := if_pos ⟨rfl, rfl⟩
  refine ⟨⟨?_, ?_, ?_⟩, hhas, ?_⟩
  · intro n h b hb
    simp only [genesisChain, Option.ite_none_right_eq_some, Option.some.injEq] at hb
    obtain ⟨hk, rfl⟩ := hb
    exact ⟨hT.genesis, hk⟩
  · intro b hb p _ hc
    have hbg : g = b := by
      simp only [Has, genesisChain, Option.ite_none_right_eq_some, Option.some.injEq] at hb
      exact hb.2
    have := hc.2
    have := hT.number_genesis
    rw [← hbg] at *
    omega
  · intro n h
    simp [genesisChain]
  · intro bs hbs
    obtain rfl := hbs.unique hT.isTree .root
    refine ⟨?_, ?_⟩
    · intro b hb
      obtain rfl := mem_singleton.mp hb
      simp [genesisChain]
    · intro h
      simp [genesisChain, includedIn, txHashes, hT.transactions_genesis]

theorem clear_genesisChain (st : StateDB) (preserve : Option (Block → Bool)) :
    (genesisChain g st preserve).Clear := by
  intro i hi
  have hne : i ≠ g.numberU64 := by
    rintro rfl
    exact UInt64.lt_irrefl _ hi
  simp [genesisChain, hne]

theorem Tracks.headAncestor (h : Tracks g T bc) (hT : ValidTree g T) {i : Nat}
    (hi : i ≤ bc.currentBlock.header.number) :
    ∃ b, bc.headAncestor i = some b ∧ b.header.number = i ∧
      bc.canonical (UInt64.ofNat i) = some b.hash := by
  obtain ⟨bs, hbs⟩ := hT.isTree.exists_lineage (h.stored.mem_tree h.head)
  obtain ⟨left, p, rest, hstep, rfl, hnum, hp, -⟩ :=
    h.stored.stepBack_eq (bc.currentBlock.header.number - i) hT h.head hbs (by omega)
  have hnum : p.header.number = i := by omega
  obtain ⟨tail, rfl⟩ := hp.eq_cons
  refine ⟨p, by simp [BlockChain.headAncestor, hstep], hnum, ?_⟩
  rw [← hnum]
  exact (h.index _ hbs).canonical p (mem_append_right _ mem_cons_self)

theorem Tracks.mem_canonicalChain (h : Tracks g T bc) (hT : ValidTree g T)
    (hbs : Branch g T bc.currentBlock bs) (b : Block) : b ∈ bc.canonicalChain ↔ b ∈ bs := by
  have hcT := h.stored.mem_tree h.head
  simp only [canonicalChain, mem_filterMap, mem_range, Option.bind_eq_some_iff, getBlock]
  constructor
  · rintro ⟨i, hi, k, hk, hb⟩
    obtain ⟨a, ha, rfl⟩ := hbs.exists_level hT.isTree (Nat.lt_succ_iff.mp hi)
    obtain rfl := Option.some.inj (((h.index bs hbs).canonical a ha).symm.trans hk)
    have hahas := h.stored.has_of_mem h.head hbs ha
    obtain rfl := Option.some.inj (hahas.symm.trans hb)
    exact ha
  · intro hb
    exact ⟨b.header.number, Nat.lt_succ_iff.mpr (hbs.number_le hb), b.hash,
      (h.index bs hbs).canonical b hb, h.stored.has_of_mem h.head hbs hb⟩

theorem Branch.includedIn_eq_some (hT : ValidTree g T) (hb : b ∈ T) (h : Branch g T b bs) {k : Hash}
    {n : Nat} :
    includedIn bs k = some n ↔ ∃ a ∈ bs, a.header.number = n ∧ k ∈ a.txHashes := by
  induction h with
  | root => simp [includedIn, txHashes, hT.transactions_genesis]
  | @child b p bs hp hc hbs ih =>
    rw [includedIn_cons]
    by_cases hk : k ∈ b.txHashes
    · rw [if_pos hk]
      constructor
      · intro hn
        exact ⟨b, mem_cons_self, Option.some.inj hn, hk⟩
      · rintro ⟨a, ha, rfl, hka⟩
        rcases mem_cons.mp ha with rfl | ha
        · rfl
        · exact absurd hk (hT.once b hb bs (.child hp hc hbs) a ha hka)
    · rw [if_neg hk, ih hp]
      simp [hk]

/-- **The canonical index.** After any sequence of writes of blocks of a valid tree, the
canonical hashes up to the head are those of its ancestors, and the lookup entries are those of
the transactions of the canonical blocks. No hash stays above the head as long as no single
block has taken the place of a longer branch. -/
theorem canonical_index (hT : ValidTree g T) (st : StateDB) (preserve : Option (Block → Bool))
    (ws : List BlockWrite) (hws : ∀ w ∈ ws, w.block ∈ T) {bc : BlockChain}
    (hbc : bc = (genesisChain g st preserve).writeBlocks ws) :
    (∀ i ≤ bc.currentBlock.header.number, ∃ b, bc.headAncestor i = some b ∧
        b.header.number = i ∧ bc.canonical (UInt64.ofNat i) = some b.hash) ∧
      (∀ h n, bc.txLookup h = some n ↔
        ∃ b ∈ bc.canonicalChain, b.header.number = n ∧ h ∈ b.txHashes) ∧
      (Run.Along (fun bc w => (bc.writeBlockWithState w).1) (fun bc w => ¬ bc.DropsTail w)
          (genesisChain g st preserve) ws →
        ∀ i, bc.currentBlock.numberU64 < i → bc.canonical i = none) := by
  have hall : Run.Along (fun bc w => (bc.writeBlockWithState w).1) (fun _ w => w.block ∈ T)
      (genesisChain g st preserve) ws := Run.along_of_forall ws (fun _ => hws) _
  have ht : Tracks g T bc := by
    rw [hbc]
    exact Run.invariant (fun _ _ h hw => (h.write hT hw).1) ws _
      (tracks_genesisChain hT st preserve) hall
  refine ⟨fun i hi => ht.headAncestor hT hi, fun h n => ?_, fun hd => ?_⟩
  · have hcT := ht.stored.mem_tree ht.head
    obtain ⟨bs, hbs⟩ := hT.isTree.exists_lineage hcT
    simp only [ht.mem_canonicalChain hT hbs]
    rw [(ht.index bs hbs).lookup, Branch.includedIn_eq_some hT hcT hbs]
  · have hclear : Tracks g T bc ∧ bc.Clear := by
      rw [hbc]
      exact Run.invariant (P := fun bc => Tracks g T bc ∧ bc.Clear)
        (fun _ _ h hw => ⟨(h.1.write hT hw.1).1, (h.1.write hT hw.1).2 h.2 hw.2⟩) ws _
        ⟨tracks_genesisChain hT st preserve, clear_genesisChain st preserve⟩
        (Run.along_and hall hd)
    exact hclear.2

end BlockChain

namespace BlockChain

attribute [local instance] HashFns.plain

/-! ## A fork -/

def nextBlock (parent : Block) (difficulty : Nat) (txs : List Transaction) : Block where
  header := { (default : Header) with
    parentHash := parent.hash, number := parent.header.number + 1, difficulty := difficulty }
  transactions := txs
  uncles := []

/-- Three blocks signed out of turn. -/
def left1 : Block := nextBlock default 1 [{ (default : Transaction) with id := 1, cmV := [8] }]
def left2 : Block := nextBlock left1 1 []
def left3 : Block := nextBlock left2 1 []

/-- A block signed in turn beside them, with the transaction of `left1`. -/
def right1 : Block := nextBlock default 2 left1.transactions

def forkTree : List Block := [default, left1, left2, left3, right1]

def plainWrite (b : Block) : BlockWrite where
  block := b
  state := default
  commit := some []
  coin := false
  pruned := []

theorem validTree_forkTree : ValidTree default {b | b ∈ forkTree} where
  genesis := mem_cons_self
  number_genesis := rfl
  transactions_genesis := rfl
  parent := by
    have h : ∀ b ∈ forkTree, b ≠ default →
        ∃ p ∈ forkTree, b.parentHash = p.hash ∧ b.header.number = p.header.number + 1 := by
      decide
    exact h
  number := by
    have h : ∀ b ∈ forkTree, b.header.number + 1 < 2 ^ 64 := by decide
    exact h
  eq_of_hash := by
    have h : ∀ b ∈ forkTree, ∀ b' ∈ forkTree, b.hash = b'.hash → b = b' := by decide
    exact h
  once b hb bs hbs a ha := by
    have hmem := hbs.mem hb (mem_cons_of_mem _ ha)
    have h : ∀ b ∈ forkTree, ∀ a ∈ forkTree, a.header.number < b.header.number →
        ∀ k ∈ a.txHashes, k ∉ b.txHashes := by decide
    exact h b hb a hmem (hbs.number_lt ha)

/-- The single block beside the first of the others becomes the head, and two blocks more of the
others take the place of it. -/
theorem canonical_index_fork : ((genesisChain default default none).writeBlocks
        ([left1, right1, left2, left3].map plainWrite)).currentBlock = left3 ∧
      ∀ i, left3.numberU64 < i → ((genesisChain default default none).writeBlocks
        ([left1, right1, left2, left3].map plainWrite)).canonical i = none := by
  have hhead : ((genesisChain default default none).writeBlocks
      ([left1, right1, left2, left3].map plainWrite)).currentBlock = left3 := by decide
  have hws : ∀ w ∈ [left1, right1, left2, left3].map plainWrite, w.block ∈ forkTree := by decide
  have h := canonical_index validTree_forkTree default none _ hws rfl
  rw [hhead] at h
  exact ⟨hhead, h.2.2 ⟨by decide, by decide, by decide, by decide, trivial⟩⟩

/-- Of two branches of the same total difficulty the shorter one is preferred. The hash of the
second block of the longer one stays in the index, above the new head. -/
theorem canonical_above_head : ValidTree default {b | b ∈ forkTree} ∧
      (∀ w ∈ [left1, left2, right1].map plainWrite, w.block ∈ forkTree) ∧
      ((genesisChain default default none).writeBlocks
        ([left1, left2, right1].map plainWrite)).currentBlock = right1 ∧
      right1.header.number = 1 ∧
      ((genesisChain default default none).writeBlocks
        ([left1, left2, right1].map plainWrite)).canonical 2 = some left2.hash := by
  refine ⟨validTree_forkTree, by decide, by decide, rfl, by decide⟩

end BlockChain

end GethComments
