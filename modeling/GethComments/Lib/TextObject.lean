import Mathlib.Data.Char
import Mathlib.Data.Finmap
import Mathlib.Data.Finset.Sort
import Mathlib.Data.List.Lex

/-!
# Maps as the members of an object

A map is written as a list of members, a text for each key, in the order of the texts, and is
read back member by member. The texts of different keys are different.

* `readKeys_writeKeys`: sets of keys are read back;
* `readMembers_writeMembers`: maps are read back.
-/

namespace GethComments

/-- How the keys of a map are written. -/
structure TextKey (κ : Type) where
  text : κ → List Char
  injective : Function.Injective text

namespace TextKey

variable {κ : Type} (K : TextKey κ)

/-- The order of the members. -/
def le (a b : κ) : Prop := K.text a ≤ K.text b

instance : DecidableRel K.le := fun a b => inferInstanceAs (Decidable (K.text a ≤ K.text b))

instance : IsTrans κ K.le := ⟨fun _ _ _ hab hbc => le_trans hab hbc⟩

instance : Std.Antisymm K.le := ⟨fun _ _ hab hba => K.injective (le_antisymm hab hba)⟩

instance : Std.Total K.le := ⟨fun a b => le_total (K.text a) (K.text b)⟩

end TextKey

namespace TextObject

variable {κ β γ : Type} [DecidableEq κ] (K : TextKey κ) (read : List Char → Option κ)

/-! ## Sets -/

def writeKeys (keys : Finset κ) : List (List Char) := (keys.sort K.le).map K.text

def readKeys (texts : List (List Char)) : Option (Finset κ) := (texts.mapM read).map List.toFinset

theorem mapM_map_of_forall {α δ : Type} {f : α → δ} {g : δ → Option α} (l : List α)
    (h : ∀ a ∈ l, g (f a) = some a) : (l.map f).mapM g = some l := by
  induction l with
  | nil => rfl
  | cons a l ih =>
    have ha : g (f a) = some a := h a List.mem_cons_self
    have hl := ih fun b hb => h b (List.mem_cons_of_mem a hb)
    simp [List.mapM_cons, ha, hl]

theorem readKeys_writeKeys (keys : Finset κ) (h : ∀ k ∈ keys, read (K.text k) = some k) :
    readKeys read (writeKeys K keys) = some keys := by
  have hread := mapM_map_of_forall (keys.sort K.le) fun k hk => h k ((Finset.mem_sort K.le).mp hk)
  rw [readKeys, writeKeys, hread, Option.map_some, Finset.sort_toFinset]

/-! ## Maps -/

variable (write : β → γ) (readValue : γ → Option β)

def writeMembers (m : Finmap fun _ : κ => β) : List (List Char × γ) :=
  (m.keys.sort K.le).filterMap fun k => (m.lookup k).map fun b => (K.text k, write b)

/-- A later member of one key takes the place of an earlier one. -/
def readMembers (members : List (List Char × γ)) : Option (Finmap fun _ : κ => β) :=
  members.foldlM (fun m member => do
    let k ← read member.1
    let b ← readValue member.2
    some (m.insert k b)) ∅

theorem foldlM_members {m : Finmap fun _ : κ => β} (hkey : ∀ k ∈ m.keys, read (K.text k) = some k)
    (hvalue : ∀ k b, m.lookup k = some b → readValue (write b) = some b)
    (ks : List κ) (hks : ∀ k ∈ ks, k ∈ m.keys) (acc : Finmap fun _ : κ => β) :
    ∃ r, (ks.filterMap fun k => (m.lookup k).map fun b => (K.text k, write b)).foldlM
        (fun m member => do
          let k ← read member.1
          let b ← readValue member.2
          some (m.insert k b)) acc = some r ∧
      ∀ k, r.lookup k = if k ∈ ks then m.lookup k else acc.lookup k := by
  induction ks generalizing acc with
  | nil => exact ⟨acc, rfl, fun k => by simp⟩
  | cons k ks ih =>
    have hk : k ∈ m.keys := hks k List.mem_cons_self
    obtain ⟨b, hb⟩ := Finmap.mem_iff.mp (Finmap.mem_keys.mp hk)
    obtain ⟨r, hr, hlook⟩ := ih (fun j hj => hks j (List.mem_cons_of_mem k hj)) (acc.insert k b)
    refine ⟨r, ?_, fun j => ?_⟩
    · simpa [List.filterMap_cons, hb, List.foldlM_cons, hkey k hk, hvalue k b hb] using hr
    · rw [hlook j]
      by_cases hj : j ∈ ks
      · simp [hj]
      · by_cases hjk : j = k
        · subst hjk
          simp [hj, hb]
        · simp [hj, hjk, Finmap.lookup_insert_of_ne]

theorem readMembers_writeMembers (m : Finmap fun _ : κ => β)
    (hkey : ∀ k ∈ m.keys, read (K.text k) = some k)
    (hvalue : ∀ k b, m.lookup k = some b → readValue (write b) = some b) :
    readMembers read readValue (writeMembers K write m) = some m := by
  obtain ⟨r, hr, hlook⟩ := foldlM_members K read write readValue hkey hvalue (m.keys.sort K.le)
    (fun k hk => (Finset.mem_sort K.le).mp hk) ∅
  have heq : r = m := by
    apply Finmap.ext_lookup
    intro k
    rw [hlook k]
    split_ifs with hk
    · rfl
    · have hnone : k ∉ m := fun h => hk ((Finset.mem_sort K.le).mpr (Finmap.mem_keys.mpr h))
      rw [Finmap.lookup_eq_none.mpr hnone, Finmap.lookup_empty]
  rw [readMembers, writeMembers, hr, heq]

end TextObject

end GethComments
