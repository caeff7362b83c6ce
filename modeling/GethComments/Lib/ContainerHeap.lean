import Mathlib.Data.List.Induction
import Mathlib.Logic.Equiv.Basic

/-!
# Binary heaps in a slice

The algorithms of Go's package `container/heap` on the list of the slice's elements,
for an arbitrary comparison `less`. Loops take the length of the slice as fuel, which
bounds the height of the tree.

* `perm_push`, `perm_pop`, `perm_init`: what is in the heap;
* `isHeap_push`, `isHeap_pop`, `isHeap_init`: the order, if `less` is a strict weak order;
* `IsHeap.head_le`: the root is a least element.
-/

namespace GethComments.ContainerHeap

open List

universe u

variable {α : Type u} (less : α → α → Bool)

/-- `h.Swap(i, j)`. -/
def swap (h : List α) (i j : Nat) : List α :=
  match h[i]?, h[j]? with
  | some a, some b => (h.set i b).set j a
  | _, _ => h

/-- `h.Less(i, j)`; false out of range. -/
def lessAt (h : List α) (i j : Nat) : Bool :=
  match h[i]?, h[j]? with
  | some a, some b => less a b
  | _, _ => false

/-- Moves the element at `j` towards the root. -/
def up : Nat → List α → Nat → List α
  | 0, h, _ => h
  | fuel + 1, h, j =>
    let i := (j - 1) / 2
    if i = j || !lessAt less h j i then h else up fuel (swap h i j) i

/-- Moves the element at `i` towards the leaves among the first `n` elements. -/
def down : Nat → List α → Nat → Nat → List α
  | 0, h, _, _ => h
  | fuel + 1, h, i, n =>
    let j1 := 2 * i + 1
    if j1 ≥ n then h
    else
      -- the smaller child, the left one if they are equal
      let j := if j1 + 1 < n && lessAt less h (j1 + 1) j1 then j1 + 1 else j1
      if !lessAt less h j i then h else down fuel (swap h i j) j n

/-- `heap.Init`: every inner node from the last one to the root is moved down. -/
def init (h : List α) : List α :=
  (range (h.length / 2)).reverse.foldl (fun h i => down less h.length h i h.length) h

/-- `heap.Push`. -/
def push (h : List α) (x : α) : List α :=
  let h := h ++ [x]
  up less h.length h (h.length - 1)

/-- `heap.Pop`: the least element with the heap that is left, `none` on an empty heap. -/
def pop (h : List α) : Option (α × List α) :=
  let n := h.length - 1
  let h' := down less h.length (swap h 0 n) 0 n
  h'.getLast?.map fun x => (x, h'.dropLast)

/-! ## Elements -/

section Elements

theorem swap_eq_self {h : List α} {i j : Nat} (hij : ¬(i < h.length ∧ j < h.length)) :
    swap h i j = h := by
  unfold swap
  split
  · next a b ha hb =>
    exact absurd ⟨(List.getElem?_eq_some_iff.mp ha).1, (List.getElem?_eq_some_iff.mp hb).1⟩ hij
  · rfl

theorem swap_eq_set {h : List α} {i j : Nat} (hi : i < h.length) (hj : j < h.length) :
    swap h i j = (h.set i h[j]).set j h[i] := by
  simp [swap, List.getElem?_eq_getElem hi, List.getElem?_eq_getElem hj]

theorem perm_swap (h : List α) (i j : Nat) : (swap h i j).Perm h := by
  by_cases hij : i < h.length ∧ j < h.length
  · rw [swap_eq_set hij.1 hij.2]
    exact set_set_perm hij.1 hij.2
  · rw [swap_eq_self hij]

@[simp] theorem length_swap (h : List α) (i j : Nat) : (swap h i j).length = h.length :=
  (perm_swap h i j).length_eq

theorem getElem?_swap {h : List α} {i j : Nat} (hi : i < h.length) (hj : j < h.length) (k : Nat) :
    (swap h i j)[k]? = h[Equiv.swap i j k]? := by
  rw [swap_eq_set hi hj, List.getElem?_set, List.getElem?_set, length_set]
  by_cases hkj : j = k
  · subst hkj
    simp [hj, hi]
  · by_cases hki : i = k
    · subst hki
      simp [hkj, hi, hj]
    · rw [if_neg hkj, if_neg hki, Equiv.swap_apply_of_ne_of_ne (Ne.symm hki) (Ne.symm hkj)]

theorem perm_up (fuel : Nat) (h : List α) (j : Nat) : (up less fuel h j).Perm h := by
  induction fuel generalizing h j with
  | zero => exact List.Perm.refl h
  | succ fuel ih =>
    unfold up
    dsimp only
    split
    · exact List.Perm.refl h
    · exact (ih _ _).trans (perm_swap h _ _)

/-- The smaller child of `i` among the first `n` elements, the left one if they are equal. -/
def child (h : List α) (i n : Nat) : Nat :=
  if 2 * i + 1 + 1 < n && lessAt less h (2 * i + 1 + 1) (2 * i + 1) then 2 * i + 1 + 1
  else 2 * i + 1

theorem down_succ (fuel : Nat) (h : List α) (i n : Nat) : down less (fuel + 1) h i n =
      if 2 * i + 1 ≥ n then h
      else if !lessAt less h (child less h i n) i then h
      else down less fuel (swap h i (child less h i n)) (child less h i n) n := rfl

theorem child_spec {h : List α} {i n : Nat} (hi : ¬2 * i + 1 ≥ n) :
    0 < child less h i n ∧ child less h i n < n ∧ (child less h i n - 1) / 2 = i := by
  unfold child
  split
  · next hc =>
    rw [Bool.and_eq_true, decide_eq_true_eq] at hc
    omega
  · omega

theorem perm_down (fuel : Nat) (h : List α) (i n : Nat) : (down less fuel h i n).Perm h := by
  induction fuel generalizing h i with
  | zero => exact List.Perm.refl h
  | succ fuel ih =>
    rw [down_succ]
    split
    · exact List.Perm.refl h
    · split
      · exact List.Perm.refl h
      · exact (ih _ _).trans (perm_swap h _ _)

@[simp] theorem length_down (fuel : Nat) (h : List α) (i n : Nat) :
    (down less fuel h i n).length = h.length :=
  (perm_down less fuel h i n).length_eq

theorem getElem?_down (fuel : Nat) {h : List α} {i n k : Nat} (hi : i < n) (hn : n ≤ h.length)
    (hk : n ≤ k) : (down less fuel h i n)[k]? = h[k]? := by
  induction fuel generalizing h i with
  | zero => rfl
  | succ fuel ih =>
    rw [down_succ]
    split
    · rfl
    · next hchild =>
      obtain ⟨hj0, hjn, hji⟩ := child_spec less (h := h) hchild
      split
      · rfl
      · rw [ih hjn (by simpa using hn), getElem?_swap (by omega) (by omega),
          Equiv.swap_apply_of_ne_of_ne (by omega) (by omega)]

theorem perm_init (h : List α) : (init less h).Perm h := by
  unfold init
  induction (range (h.length / 2)).reverse using reverseRecOn with
  | nil => exact List.Perm.refl h
  | append_singleton is i ih =>
    rw [foldl_append]
    exact (perm_down less _ _ _ _).trans ih

theorem perm_push (h : List α) (x : α) : (push less h x).Perm (x :: h) :=
  (perm_up less _ _ _).trans (perm_append_singleton x h)

/-- What is popped is the root, and the rest stays. -/
theorem pop_eq_some {h rest : List α} {x : α} (hp : pop less h = some (x, rest)) :
    h.head? = some x ∧ (x :: rest).Perm h := by
  unfold pop at hp
  dsimp only at hp
  generalize hd : down less h.length (swap h 0 (h.length - 1)) 0 (h.length - 1) = h' at hp
  obtain ⟨y, hy, heq⟩ := Option.map_eq_some_iff.mp hp
  cases heq
  have hperm : h'.Perm h := hd ▸ (perm_down less _ _ _ _).trans (perm_swap h _ _)
  have hne : h' ≠ [] := fun hnil => by simp [hnil] at hy
  have hlen : 0 < h.length := hperm.length_eq ▸ length_pos_iff.mpr hne
  constructor
  · -- the root is swapped to the last position, which `down` leaves alone
    have hlast : h'[h.length - 1]? = h[0]? := by
      by_cases h0 : h.length - 1 = 0
      · have hh : h.length = 1 := by omega
        obtain ⟨a, rfl⟩ := length_eq_one_iff.mp hh
        rw [← hd]
        rfl
      · rw [← hd, getElem?_down less _ (by omega) (by simp), getElem?_swap hlen (by omega),
          Equiv.swap_apply_right]
        exact Nat.le_refl _
    rw [getLast?_eq_getElem?, hperm.length_eq, hlast] at hy
    rw [head?_eq_getElem?]
    exact hy
  · have happ : h'.dropLast ++ [x] = h' := by
      obtain ⟨hl, hx⟩ := getLast?_eq_some_iff.mp hy
      rw [hx]
      simp
    refine List.Perm.trans ?_ hperm
    rw [← happ]
    simpa using (perm_append_singleton x h'.dropLast).symm

end Elements

/-! ## Order -/

/-- The element at `b` is not before the one at `a`. -/
def LeAt (h : List α) (a b : Nat) : Prop :=
  ∀ x y, h[a]? = some x → h[b]? = some y → less y x = false

/-- The first `n` elements: no child is before its parent, for the parents from `lo` on. -/
def OrderedFrom (h : List α) (lo n : Nat) : Prop :=
  ∀ c, 0 < c → c < n → lo ≤ (c - 1) / 2 → LeAt less h ((c - 1) / 2) c

def IsHeap (h : List α) : Prop := OrderedFrom less h 0 h.length

section Order

variable {less} (hasymm : ∀ a b, less a b = true → less b a = false)
  (htrans : ∀ a b c, less b a = false → less c b = false → less c a = false)
  {h : List α} {a b c i j n lo : Nat}

theorem leAt_iff : LeAt less h a b ↔ lessAt less h b a = false := by
  unfold LeAt lessAt
  constructor
  · intro hle
    split
    · next y x hy hx => exact hle x y hx hy
    · rfl
  · intro hle x y hx hy
    simpa [hx, hy] using hle

include hasymm in
theorem leAt_of_lessAt (hl : lessAt less h a b = true) : LeAt less h a b := by
  intro x y hx hy
  have hxy : less x y = true := by simpa [lessAt, hx, hy] using hl
  exact hasymm x y hxy

include htrans in
theorem LeAt.trans (h1 : LeAt less h a b) (h2 : LeAt less h b c) (hb : b < h.length) :
    LeAt less h a c := by
  intro x z hx hz
  have hy := List.getElem?_eq_getElem hb
  exact htrans x h[b] z (h1 x _ hx hy) (h2 _ z hy hz)

theorem leAt_swap (hi : i < h.length) (hj : j < h.length) :
    LeAt less (swap h i j) a b ↔ LeAt less h (Equiv.swap i j a) (Equiv.swap i j b) := by
  unfold LeAt
  rw [getElem?_swap hi hj, getElem?_swap hi hj]

/-- What `up` needs at `j`: every other child is in order, and the children of `j` are not before
its parent. -/
structure UpOrder (less : α → α → Bool) (h : List α) (j : Nat) : Prop where
  except : ∀ c, 0 < c → c < h.length → c ≠ j → LeAt less h ((c - 1) / 2) c
  grand : 0 < j → ∀ c, 0 < c → c < h.length → (c - 1) / 2 = j → LeAt less h ((j - 1) / 2) c

include hasymm htrans in
theorem UpOrder.move (hu : UpOrder less h j) (hj : j < h.length) (h0 : 0 < j)
    (hl : lessAt less h j ((j - 1) / 2) = true) :
    UpOrder less (swap h ((j - 1) / 2) j) ((j - 1) / 2) := by
  have hp : (j - 1) / 2 < j := by omega
  generalize hpar : (j - 1) / 2 = p at hl hp
  have hpj : LeAt less h j p := leAt_of_lessAt hasymm hl
  -- the siblings of `j` are not before the old parent
  have hsib : ∀ c, 0 < c → c < h.length → c ≠ j → (c - 1) / 2 = p → LeAt less h p c := by
    intro c hc0 hc hcj hcp
    exact hcp ▸ hu.except c hc0 hc hcj
  constructor
  · intro c hc0 hc hcp
    rw [length_swap] at hc
    rw [leAt_swap (by omega) hj]
    by_cases hcj : c = j
    · subst hcj
      rw [hpar, Equiv.swap_apply_left, Equiv.swap_apply_right]
      exact hpj
    · rw [Equiv.swap_apply_of_ne_of_ne hcp hcj]
      by_cases hq : (c - 1) / 2 = p
      · rw [hq, Equiv.swap_apply_left]
        exact hpj.trans htrans (hsib c hc0 hc hcj hq) (by omega)
      · by_cases hq' : (c - 1) / 2 = j
        · rw [hq', Equiv.swap_apply_right]
          exact hpar ▸ hu.grand h0 c hc0 hc hq'
        · rw [Equiv.swap_apply_of_ne_of_ne hq hq']
          exact hu.except c hc0 hc hcj
  · intro hp0 c hc0 hc hcp
    rw [length_swap] at hc
    have hpp : LeAt less h ((p - 1) / 2) p := hu.except p hp0 (by omega) (by omega)
    rw [leAt_swap (by omega) hj, Equiv.swap_apply_of_ne_of_ne (by omega) (by omega)]
    by_cases hcj : c = j
    · subst hcj
      rw [Equiv.swap_apply_right]
      exact hpp
    · rw [Equiv.swap_apply_of_ne_of_ne (by omega) hcj]
      exact hpp.trans htrans (hsib c hc0 hc hcj hcp) (by omega)

include hasymm htrans in
theorem isHeap_up (fuel : Nat) (hu : UpOrder less h j) (hj : j < h.length) (hf : j ≤ fuel) :
    IsHeap less (up less fuel h j) := by
  have hstop : ∀ {h : List α} {j : Nat}, UpOrder less h j →
      (0 < j → LeAt less h ((j - 1) / 2) j) → IsHeap less h := by
    intro h j hu hle c hc0 hc _
    by_cases hcj : c = j
    · subst hcj
      exact hle hc0
    · exact hu.except c hc0 hc hcj
  induction fuel generalizing h j with
  | zero => exact hstop hu fun h0 => by omega
  | succ fuel ih =>
    unfold up
    dsimp only
    split
    case isTrue hend =>
      refine hstop hu fun h0 => ?_
      rw [leAt_iff]
      rcases Bool.or_eq_true_iff.mp hend with heq | hl
      · have : (j - 1) / 2 = j := by simpa using heq
        omega
      · simpa using hl
    case isFalse hgo =>
      rw [Bool.or_eq_true_iff, not_or] at hgo
      have hl : lessAt less h j ((j - 1) / 2) = true := by simpa using hgo.2
      have h0 : 0 < j := by
        have : (j - 1) / 2 ≠ j := by simpa using hgo.1
        omega
      exact ih (hu.move hasymm htrans hj h0 hl) (by simpa using by omega) (by omega)

include hasymm htrans in
theorem isHeap_push (hh : IsHeap less h) (x : α) : IsHeap less (push less h x) := by
  refine isHeap_up hasymm htrans _ ⟨fun c hc0 hc hcj => ?_, fun _ c _ hc hcj => ?_⟩ (by simp)
    (by simp)
  · rw [length_append, length_singleton] at hc hcj
    intro y z hy hz
    rw [List.getElem?_append_left (by omega)] at hy hz
    exact hh c hc0 (by omega) (Nat.zero_le _) y z hy hz
  · simp only [length_append, length_singleton] at hc hcj
    omega

/-- What `down` needs at `i`: the children of every other node from `lo` on are in order, and the
children of `i` are not before its parent. -/
structure DownOrder (less : α → α → Bool) (h : List α) (lo i n : Nat) : Prop where
  except : ∀ c, 0 < c → c < n → lo ≤ (c - 1) / 2 → (c - 1) / 2 ≠ i → LeAt less h ((c - 1) / 2) c
  grand : 0 < i → lo ≤ (i - 1) / 2 → ∀ c, 0 < c → c < n → (c - 1) / 2 = i →
    LeAt less h ((i - 1) / 2) c

include hasymm in
theorem DownOrder.move (hd : DownOrder less h lo i n) (hn : n ≤ h.length) (hj0 : 0 < j)
    (hjn : j < n) (hji : (j - 1) / 2 = i) (hlo : lo ≤ i)
    (hmin : ∀ c, 0 < c → c < n → (c - 1) / 2 = i → LeAt less h j c)
    (hl : lessAt less h j i = true) : DownOrder less (swap h i j) lo j n := by
  have hij : i < j := by omega
  constructor
  · intro c hc0 hc hclo hcj
    rw [leAt_swap (by omega) (by omega)]
    by_cases hci : (c - 1) / 2 = i
    · rw [hci, Equiv.swap_apply_left]
      by_cases hcj' : c = j
      · subst hcj'
        rw [Equiv.swap_apply_right]
        exact leAt_of_lessAt hasymm hl
      · rw [Equiv.swap_apply_of_ne_of_ne (by omega) hcj']
        exact hmin c hc0 hc hci
    · rw [Equiv.swap_apply_of_ne_of_ne hci hcj]
      by_cases hc' : c = i
      · subst hc'
        rw [Equiv.swap_apply_left]
        exact hd.grand hc0 hclo j hj0 hjn hji
      · rw [Equiv.swap_apply_of_ne_of_ne hc' (by rintro rfl; exact hci hji)]
        exact hd.except c hc0 hc hclo hci
  · intro _ _ c hc0 hc hcj
    rw [leAt_swap (by omega) (by omega), hji, Equiv.swap_apply_left,
      Equiv.swap_apply_of_ne_of_ne (by omega) (by omega)]
    exact hcj ▸ hd.except c hc0 hc (by omega) (by omega)

include hasymm in
theorem child_min (hc0 : 0 < c) (hcn : c < n) (hci : (c - 1) / 2 = i) :
    LeAt less h (child less h i n) c := by
  have hself : ∀ k, LeAt less h k k := by
    intro k x y hx hy
    rw [hx] at hy
    cases hy
    cases hxx : less x x with
    | false => rfl
    | true => exact hxx.symm.trans (hasymm x x hxx)
  have hcases : c = 2 * i + 1 ∨ c = 2 * i + 1 + 1 := by omega
  unfold child
  split
  case isTrue hc =>
    rw [Bool.and_eq_true, decide_eq_true_eq] at hc
    rcases hcases with rfl | rfl
    · exact leAt_of_lessAt hasymm hc.2
    · exact hself _
  case isFalse hc =>
    rcases hcases with rfl | rfl
    · exact hself _
    · rw [leAt_iff]
      simpa [hcn] using hc

include hasymm htrans in
theorem orderedFrom_down (fuel : Nat) (hd : DownOrder less h lo i n) (hn : n ≤ h.length)
    (hf : n ≤ i + fuel) (hlo : lo ≤ i) : OrderedFrom less (down less fuel h i n) lo n := by
  have hstop : ∀ {h : List α} {i : Nat}, DownOrder less h lo i n →
      (∀ c, 0 < c → c < n → (c - 1) / 2 = i → LeAt less h i c) → OrderedFrom less h lo n := by
    intro h i hd hle c hc0 hc hclo
    by_cases hci : (c - 1) / 2 = i
    · exact hci ▸ hle c hc0 hc hci
    · exact hd.except c hc0 hc hclo hci
  induction fuel generalizing h i with
  | zero => exact hstop hd fun c hc0 hc hci => by omega
  | succ fuel ih =>
    rw [down_succ]
    split
    case isTrue hend => exact hstop hd fun c hc0 hc hci => by omega
    case isFalse hchild =>
      obtain ⟨hj0, hjn, hji⟩ := child_spec less (h := h) hchild
      have hmin : ∀ c, 0 < c → c < n → (c - 1) / 2 = i → LeAt less h (child less h i n) c :=
        fun c hc0 hc hci => child_min hasymm hc0 hc hci
      generalize child less h i n = j at hj0 hjn hji hmin
      split
      case isTrue hl =>
        refine hstop hd fun c hc0 hc hci => ?_
        have hij : LeAt less h i j := by
          rw [leAt_iff]
          simpa using hl
        exact hij.trans htrans (hmin c hc0 hc hci) (by omega)
      case isFalse hl =>
        have hl' : lessAt less h j i = true := by simpa using hl
        exact ih (hd.move hasymm hn hj0 hjn hji hlo hmin hl') (by simpa using hn) (by omega)
          (by omega)

theorem orderedFrom_dropLast (ho : OrderedFrom less h 0 (h.length - 1)) :
    IsHeap less h.dropLast := by
  intro c hc0 hc _ x y hx hy
  rw [length_dropLast] at hc
  rw [List.getElem?_dropLast, if_pos (by omega)] at hx hy
  exact ho c hc0 hc (Nat.zero_le _) x y hx hy

include hasymm htrans in
theorem isHeap_pop {rest : List α} {x : α} (hh : IsHeap less h)
    (hp : pop less h = some (x, rest)) : IsHeap less rest := by
  unfold pop at hp
  dsimp only at hp
  obtain ⟨y, hy, heq⟩ := Option.map_eq_some_iff.mp hp
  cases heq
  have hlen := length_down less h.length (swap h 0 (h.length - 1)) 0 (h.length - 1)
  rw [length_swap] at hlen
  apply orderedFrom_dropLast
  rw [hlen]
  refine orderedFrom_down hasymm htrans _ ⟨fun c hc0 hc _ hcp => ?_, fun h0 => by omega⟩ (by simp)
    (by omega) (Nat.le_refl 0)
  rw [leAt_swap (by omega) (by omega), Equiv.swap_apply_of_ne_of_ne hcp (by omega),
    Equiv.swap_apply_of_ne_of_ne (by omega) (by omega)]
  exact hh c hc0 (by omega) (Nat.zero_le _)

include hasymm htrans in
theorem isHeap_init (h : List α) : IsHeap less (init less h) := by
  have hloop : ∀ k, ∀ g : List α, g.length = h.length → OrderedFrom less g k h.length →
      IsHeap less ((range k).reverse.foldl
        (fun g i => down less g.length g i g.length) g) := by
    intro k
    induction k with
    | zero =>
      intro g hg ho
      show OrderedFrom less g 0 g.length
      rw [hg]
      exact ho
    | succ k ih =>
      intro g hg ho
      rw [range_succ, reverse_append, reverse_singleton, singleton_append,
        foldl_cons]
      refine ih _ (by simpa using hg) ?_
      rw [hg]
      refine orderedFrom_down hasymm htrans _ ⟨fun c hc0 hc hlo hne => ?_, fun h0 hlo => ?_⟩
        (by omega) (by omega) (Nat.le_refl k)
      · exact ho c hc0 hc (by omega)
      · omega
  refine hloop (h.length / 2) h rfl fun c hc0 hc hlo => ?_
  -- the nodes from the middle on have no children
  omega

include htrans in
theorem IsHeap.head_le (hh : IsHeap less h) {x y : α} (hx : h.head? = some x) (hy : y ∈ h)
    (hirr : less x x = false) : less y x = false := by
  rw [head?_eq_getElem?] at hx
  obtain ⟨k, hk, rfl⟩ := getElem_of_mem hy
  have hroot : ∀ k, k < h.length → LeAt less h 0 k := by
    intro k
    induction k using Nat.strongRecOn with
    | _ k ih =>
      intro hk
      rcases Nat.eq_zero_or_pos k with rfl | h0
      · intro a b ha hb
        rw [hx] at ha hb
        cases ha
        cases hb
        exact hirr
      · have hp : (k - 1) / 2 < k := by omega
        exact (ih _ hp (by omega)).trans htrans (hh k h0 hk (Nat.zero_le _)) (by omega)
  exact hroot k hk x h[k] hx (List.getElem?_eq_getElem hk)

end Order

end GethComments.ContainerHeap
