import Mathlib.Data.Set.Basic
import Mathlib.Data.List.Basic

/-!
# Lineages in a tree

The line of ancestors of a member of a tree that is given by a relation between a child and its
parent, from the member down to the root.

* `IsTree.exists_lineage`, `Lineage.unique`: every member has one lineage;
* `Lineage.of_append`: the lower part of a lineage is a lineage;
* `Lineage.exists_level`, `Lineage.pairwise_level`: there is one ancestor at every level.
-/

namespace GethComments

variable {α : Type*} {root : α} {T : Set α} {Child : α → α → Prop} {level : α → Nat} {a b : α}
  {as : List α}

/-- The members from the given one down to the root. -/
inductive Lineage (root : α) (T : Set α) (Child : α → α → Prop) : α → List α → Prop
  | root : Lineage root T Child root [root]
  | child {a p : α} {ps : List α} (hp : p ∈ T) (h : Child a p)
      (hps : Lineage root T Child p ps) : Lineage root T Child a (a :: ps)

/-- Every member but the root has one parent, one level below. -/
structure IsTree (root : α) (T : Set α) (Child : α → α → Prop) (level : α → Nat) : Prop where
  root_mem : root ∈ T
  level_root : level root = 0
  parent : ∀ a ∈ T, a ≠ root → ∃ p ∈ T, Child a p
  level_child : ∀ a p, Child a p → level a = level p + 1
  unique : ∀ a, ∀ p ∈ T, ∀ q ∈ T, Child a p → Child a q → p = q

namespace Lineage

theorem eq_cons (h : Lineage root T Child a as) : ∃ rest, as = a :: rest := by
  cases h with
  | root => exact ⟨[], rfl⟩
  | child _ _ _ => exact ⟨_, rfl⟩

/-- What passes from a child to its parent holds on the whole lineage. -/
theorem closed {P : α → Prop} (hP : ∀ a, P a → ∀ p ∈ T, Child a p → P p) (ha : P a)
    (h : Lineage root T Child a as) (hb : b ∈ as) : P b := by
  induction h with
  | root => exact List.mem_singleton.mp hb ▸ ha
  | child hp h _ ih =>
    rcases List.mem_cons.mp hb with rfl | hb
    · exact ha
    · exact ih (hP _ ha _ hp h) hb

theorem mem (ha : a ∈ T) (h : Lineage root T Child a as) (hb : b ∈ as) : b ∈ T :=
  h.closed (fun _ _ _ hp _ => hp) ha hb

section

variable (hlevel : ∀ a p, Child a p → level a = level p + 1) (h : Lineage root T Child a as)
include hlevel h

theorem level_le (hb : b ∈ as) : level b ≤ level a := by
  induction h with
  | root => exact le_of_eq (List.mem_singleton.mp hb ▸ rfl)
  | child _ h _ ih =>
    rcases List.mem_cons.mp hb with rfl | hb
    · exact le_rfl
    · exact (ih hb).trans (hlevel _ _ h ▸ Nat.le_succ _)

theorem pairwise_level : as.Pairwise fun b c => level c < level b := by
  induction h with
  | root => exact List.pairwise_singleton _ _
  | child _ h hps ih =>
    refine List.pairwise_cons.mpr ⟨fun b hb => ?_, ih⟩
    rw [hlevel _ _ h]
    exact Nat.lt_succ_of_le (hps.level_le hlevel hb)

end

theorem exists_getElem? (hT : IsTree root T Child level) (h : Lineage root T Child a as) {i : Nat}
    (hi : i ≤ level a) : ∃ b, as[i]? = some b ∧ level b + i = level a := by
  induction h generalizing i with
  | root => exact ⟨root, by simp_all [hT.level_root]⟩
  | @child a p ps _ h _ ih =>
    cases i with
    | zero => exact ⟨a, rfl, rfl⟩
    | succ i =>
      rw [hT.level_child _ _ h] at hi ⊢
      obtain ⟨b, hb, hlevel⟩ := ih (Nat.le_of_succ_le_succ hi)
      exact ⟨b, hb, by omega⟩

theorem exists_level (hT : IsTree root T Child level)
    (h : Lineage root T Child a as) {i : Nat} (hi : i ≤ level a) : ∃ b ∈ as, level b = i := by
  obtain ⟨b, hb, hlevel⟩ := h.exists_getElem? hT (Nat.sub_le (level a) i)
  exact ⟨b, List.mem_of_getElem? hb, by omega⟩

theorem root_mem (h : Lineage root T Child a as) : root ∈ as := by
  induction h with
  | root => exact List.mem_singleton_self root
  | child _ _ _ ih => exact List.mem_cons_of_mem _ ih

theorem unique {bs : List α} (hT : IsTree root T Child level)
    (h : Lineage root T Child a as) (h' : Lineage root T Child a bs) : as = bs := by
  have hroot : ∀ p, ¬ Child root p := fun p hp => by
    have := hT.level_child _ _ hp
    rw [hT.level_root] at this
    omega
  induction h generalizing bs with
  | root =>
    cases h' with
    | root => rfl
    | child _ h _ => exact absurd h (hroot _)
  | child hp h _ ih =>
    cases h' with
    | root => exact absurd h (hroot _)
    | child hq h' hqs =>
      obtain rfl := hT.unique _ _ hp _ hq h h'
      rw [ih hqs]

theorem of_append {xs ys : List α} (h : Lineage root T Child a (xs ++ b :: ys)) :
    Lineage root T Child b (b :: ys) := by
  induction xs generalizing a with
  | nil =>
    obtain ⟨rest, heq⟩ := h.eq_cons
    cases heq
    exact h
  | cons x xs ih =>
    rw [List.cons_append] at h
    cases hbs : xs ++ b :: ys with
    | nil => simp at hbs
    | cons c cs =>
      rw [hbs] at h
      cases h with
      | child _ _ hps =>
        rw [← hbs] at hps
        exact ih hps

end Lineage

theorem IsTree.exists_lineage (hT : IsTree root T Child level) (ha : a ∈ T) :
    ∃ as, Lineage root T Child a as := by
  induction hn : level a using Nat.strong_induction_on generalizing a with
  | _ n ih =>
    by_cases hroot : a = root
    · exact ⟨[root], hroot ▸ .root⟩
    · obtain ⟨p, hp, h⟩ := hT.parent a ha hroot
      obtain ⟨ps, hps⟩ := ih (level p) (by rw [← hn, hT.level_child _ _ h]; omega) hp rfl
      exact ⟨a :: ps, .child hp h hps⟩

end GethComments
