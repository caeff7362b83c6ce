import GethComments.Core.ChainCommitments
import GethComments.Lib.Lineage

/-!
# Trees of blocks

The branches of a tree of valid blocks, and the walks of `reorg` along the blocks that are
stored.

* `Branch`: the lineages in the tree;
* `Stored.stepBack_eq`, `Stored.commonAncestor_eq`: the two loops of `reorg`;
* `Stored.reorgChains_eq`: `reorg` finds the point where two branches part.
-/

namespace GethComments

variable [HashFns]

namespace Block

def txHashes (b : Block) : List Hash := b.transactions.map Transaction.hash

def ChildOf (b p : Block) : Prop := b.parentHash = p.hash ∧ b.header.number = p.header.number + 1

end Block

namespace BlockChain

/-! ## Trees -/

/-- The branch of a block of the tree, from the block down to the genesis block `g`. -/
abbrev Branch (g : Block) (T : Set Block) : Block → List Block → Prop :=
  Lineage g T Block.ChildOf

/-- A tree of blocks that the consensus rules accept: the numbers count the ancestors, the
hash identifies a block, and no transaction is included twice on a branch. -/
structure ValidTree (g : Block) (T : Set Block) : Prop where
  genesis : g ∈ T
  number_genesis : g.header.number = 0
  transactions_genesis : g.transactions = []
  parent : ∀ b ∈ T, b ≠ g → ∃ p ∈ T, b.ChildOf p
  number : ∀ b ∈ T, b.header.number + 1 < 2 ^ 64
  eq_of_hash : ∀ b ∈ T, ∀ b' ∈ T, b.hash = b'.hash → b = b'
  once : ∀ b ∈ T, ∀ bs, Branch g T b (b :: bs) → ∀ a ∈ bs, a.txHashes.Disjoint b.txHashes

variable {g : Block} {T : Set Block}

variable {b a p : Block} {bs : List Block}

theorem ValidTree.isTree (hT : ValidTree g T) :
    IsTree g T Block.ChildOf fun b => b.header.number where
  root_mem := hT.genesis
  level_root := hT.number_genesis
  parent := hT.parent
  level_child _ _ h := h.2
  unique _ p hp q hq h h' := hT.eq_of_hash p hp q hq (h.1.symm.trans h'.1)

theorem Branch.number_le (h : Branch g T b bs) (ha : a ∈ bs) : a.header.number ≤ b.header.number :=
  h.level_le (b := a) (fun _ _ h => h.2) ha

theorem Branch.number_lt (h : Branch g T b (b :: bs)) (ha : a ∈ bs) :
    a.header.number < b.header.number :=
  (List.pairwise_cons.mp (h.pairwise_level fun _ _ h => h.2)).1 a ha

theorem Branch.parent (hT : ValidTree g T) (h : Branch g T b (b :: bs)) (hp : p ∈ T)
    (hc : b.ChildOf p) : Branch g T p bs := by
  cases h with
  | root =>
    have := hc.2
    have := hT.number_genesis
    omega
  | child hq hq' hbs =>
    obtain rfl := hT.eq_of_hash _ hq p hp (hq'.1.symm.trans hc.1)
    exact hbs

theorem Branch.disjoint {xs ys : List Block} (hT : ValidTree g T) (hb : b ∈ T)
    (h : Branch g T b (xs ++ ys)) {x : Block} (hx : x ∈ xs) (ha : a ∈ ys) :
    a.txHashes.Disjoint x.txHashes := by
  obtain ⟨us, vs, rfl⟩ := List.append_of_mem hx
  have h' : Branch g T x (x :: (vs ++ ys)) := by
    have hsplit : Branch g T b (us ++ x :: (vs ++ ys)) := by simpa using h
    exact hsplit.of_append
  have hxT : x ∈ T := h.mem hb (by simp)
  exact hT.once x hxT _ h' a (List.mem_append_right _ ha)

/-! ## Numbers -/

theorem ValidTree.toNat_numberU64 (hT : ValidTree g T) (hb : b ∈ T) :
    b.numberU64.toNat = b.header.number := by
  have := hT.number b hb
  rw [Block.numberU64, UInt64.toNat_ofNat']
  exact Nat.mod_eq_of_lt (by omega)

theorem ValidTree.numberU64_inj (hT : ValidTree g T) (ha : a ∈ T) (hb : b ∈ T) :
    a.numberU64 = b.numberU64 ↔ a.header.number = b.header.number := by
  rw [← UInt64.toNat_inj, hT.toNat_numberU64 ha, hT.toNat_numberU64 hb]

theorem ValidTree.numberU64_lt (hT : ValidTree g T) (ha : a ∈ T) (hb : b ∈ T) :
    a.numberU64 < b.numberU64 ↔ a.header.number < b.header.number := by
  rw [UInt64.lt_iff_toNat_lt, hT.toNat_numberU64 ha, hT.toNat_numberU64 hb]

/-! ## Walking back -/

def Has (bc : BlockChain) (b : Block) : Prop := bc.blocks b.numberU64 b.hash = some b

/-- The stored blocks are blocks of the tree, each with its ancestors. -/
structure Stored (g : Block) (T : Set Block) (bc : BlockChain) : Prop where
  mem : ∀ n h b, bc.blocks n h = some b → b ∈ T ∧ n = b.numberU64 ∧ h = b.hash
  parent : ∀ b, bc.Has b → ∀ p ∈ T, b.ChildOf p → bc.Has p
  td : ∀ n h, (bc.tds n h).isSome → (bc.blocks n h).isSome

variable {bc : BlockChain}

section

variable (hS : Stored g T bc)

include hS

theorem Stored.parent_eq (hb : bc.Has b) (hp : p ∈ T) (h : b.ChildOf p) : bc.parent b = some p := by
  rw [BlockChain.parent, getBlock, h.1, numberU64_sub_one h.2]
  exact hS.parent b hb p hp h

theorem Stored.mem_tree (hb : bc.Has b) : b ∈ T := (hS.mem _ _ _ hb).1

theorem Stored.has_of_mem (hb : bc.Has b) (h : Branch g T b bs) (ha : a ∈ bs) : bc.Has a :=
  h.closed hS.parent hb ha

theorem Stored.stepBack_eq (n : Nat) (hT : ValidTree g T) (hb : bc.Has b) (h : Branch g T b bs)
    (hn : n ≤ b.header.number) :
    ∃ left p rest, bc.stepBack n b = some (left, p) ∧ bs = left ++ rest ∧
      p.header.number + n = b.header.number ∧ Branch g T p rest ∧ bc.Has p := by
  induction n generalizing b bs with
  | zero => exact ⟨[], b, bs, rfl, rfl, rfl, h, hb⟩
  | succ n ih =>
    cases h with
    | root =>
      have := hT.number_genesis
      omega
    | @child _ p _ hp h hbs =>
      have hpar : bc.Has p := hS.parent _ hb _ hp h
      have hnum := h.2
      obtain ⟨left, q, rest, hstep, rfl, hqn, hq⟩ := ih hpar hbs (by omega)
      refine ⟨b :: left, q, rest, ?_, rfl, by omega, hq⟩
      rw [stepBack, hS.parent_eq hb hp h]
      simp [hstep]

theorem Stored.commonAncestor_eq (hT : ValidTree g T) {old new : Block} {os ns : List Block}
    (ho : bc.Has old) (hn : bc.Has new) (hos : Branch g T old os) (hns : Branch g T new ns)
    (hnum : new.header.number = old.header.number) :
    ∃ oldChain newChain c common,
      bc.commonAncestor old.header.number old new = .ok (oldChain, newChain) ∧
        os = oldChain ++ c :: common ∧ ns = newChain ++ c :: common := by
  induction hk : old.header.number generalizing old new os ns with
  | zero =>
    cases hos with
    | child _ h _ =>
      have := h.2
      omega
    | root =>
      cases hns with
      | child _ h _ =>
        have := h.2
        omega
      | root => exact ⟨[], [], g, [], by simp [commonAncestor], rfl, rfl⟩
  | succ k ih =>
    by_cases heq : old.hash = new.hash
    · obtain rfl := hT.eq_of_hash _ (hS.mem_tree ho) _ (hS.mem_tree hn) heq
      obtain rfl := hos.unique hT.isTree hns
      obtain ⟨rest, rfl⟩ := hos.eq_cons
      exact ⟨[], [], old, rest, by simp [commonAncestor], rfl, rfl⟩
    · cases hos with
      | root =>
        have := hT.number_genesis
        omega
      | @child _ p _ hp h hbs =>
        cases hns with
        | root =>
          have := hT.number_genesis
          omega
        | @child _ p' _ hp' h' hbs' =>
          have hpk : p.header.number = k := by have := h.2; omega
          have hpk' : p'.header.number = p.header.number := by have := h'.2; omega
          obtain ⟨oc, nc, c, common, hca, rfl, rfl⟩ :=
            ih (hS.parent _ ho _ hp h) (hS.parent _ hn _ hp' h') hbs hbs' hpk' hpk
          refine ⟨old :: oc, new :: nc, c, common, ?_, rfl, rfl⟩
          rw [commonAncestor, if_neg heq, hS.parent_eq ho hp h, hS.parent_eq hn hp' h']
          simp only [hca]
          rfl

theorem Stored.reorgChains_eq (hT : ValidTree g T) {old new : Block} {os ns : List Block}
    (ho : bc.Has old) (hn : bc.Has new) (hos : Branch g T old os) (hns : Branch g T new ns) :
    ∃ oldChain newChain c common, bc.reorgChains old new = .ok (oldChain, newChain) ∧
      os = oldChain ++ c :: common ∧ ns = newChain ++ c :: common := by
  have hoT := hS.mem_tree ho
  have hnT := hS.mem_tree hn
  have hle : ∀ {a b : Block}, a ∈ T → b ∈ T → a.header.number ≤ b.header.number →
      (b.numberU64 - a.numberU64).toNat = b.header.number - a.header.number := by
    intro a b ha hb hab
    rw [UInt64.toNat_sub_of_le, hT.toNat_numberU64 ha, hT.toNat_numberU64 hb]
    rw [UInt64.le_iff_toNat_le, hT.toNat_numberU64 ha, hT.toNat_numberU64 hb]
    exact hab
  unfold reorgChains
  by_cases hlt : new.header.number < old.header.number
  · rw [if_pos ((hT.numberU64_lt hnT hoT).mpr hlt), hle hnT hoT hlt.le, hT.toNat_numberU64 hnT]
    obtain ⟨left, p, rest, hstep, rfl, hpn, hp, hpS⟩ :=
      hS.stepBack_eq (old.header.number - new.header.number) hT ho hos (by omega)
    have hpn : new.header.number = p.header.number := by omega
    obtain ⟨oc, nc, c, common, hca, rfl, rfl⟩ := hS.commonAncestor_eq hT hpS hn hp hns hpn
    refine ⟨left ++ oc, nc, c, common, ?_, by simp, rfl⟩
    rw [← hpn] at hca
    simp only [hstep, hca]
    rfl
  · have hlt' : ¬ new.numberU64 < old.numberU64 := fun h => hlt ((hT.numberU64_lt hnT hoT).mp h)
    rw [if_neg hlt', hle hoT hnT (by omega), hT.toNat_numberU64 hoT]
    obtain ⟨left, p, rest, hstep, rfl, hpn, hp, hpS⟩ :=
      hS.stepBack_eq (new.header.number - old.header.number) hT hn hns (by omega)
    have hpn : p.header.number = old.header.number := by omega
    obtain ⟨oc, nc, c, common, hca, rfl, rfl⟩ := hS.commonAncestor_eq hT ho hpS hos hp hpn
    refine ⟨oc, left ++ nc, c, common, ?_, rfl, by simp⟩
    simp only [hstep, hca]
    rfl

end

end BlockChain

end GethComments
