import Mathlib.Data.List.Infix
import Mathlib.Logic.Function.Basic

/-!
# Radix trees

Trees over an alphabet `α` with values in `β` whose edges carry words. A branching node has one
child for each letter; a chain of letters without branching is one edge. The keys of a tree must not
be prefixes of each other.

* `get_insert`, `wf_insert`: a new value at a key, in place or by splitting an edge;
* `get_erase`, `wf_erase`: removal, with edges joined again;
* `ext_get`: a tree is determined by its values, so it does not depend on how it was built.
-/

namespace GethComments.Radix

open List

inductive Tree (α β : Type) where
  | nil
  | value (v : β)
  | short (key : List α) (child : Tree α β)
  | full (children : α → Tree α β)

namespace Tree

variable {α β : Type}

/-! ## Shapes -/

/-- A value or a branching node. -/
def Solid : Tree α β → Prop
  | value _ | full _ => True
  | nil | short _ _ => False

/-- Edges are not empty and not followed by edges; a branching node has at least two children. -/
def WF : Tree α β → Prop
  | nil | value _ => True
  | short key c => key ≠ [] ∧ c.Solid ∧ c.WF
  | full ch => (∃ a b, a ≠ b ∧ ch a ≠ nil ∧ ch b ≠ nil) ∧ ∀ a, (ch a).WF

/-- A tree at the end of an edge, which may be empty. -/
def graft (key : List α) (t : Tree α β) : Tree α β := if key = [] then t else short key t

def isNil : Tree α β → Bool
  | nil => true
  | value _ | short _ _ | full _ => false

@[simp] theorem isNil_eq_false : t.isNil = false ↔ t ≠ nil := by
  cases t <;> simp [isNil]

/-- An edge, joined with one that follows. -/
def merge (key : List α) : Tree α β → Tree α β
  | short k c => short (key ++ k) c
  | nil => short key nil
  | value v => short key (value v)
  | full ch => short key (full ch)

section

variable (all : List α)

/-- A branching node is an edge if only one child is left. -/
def collapse (ch : α → Tree α β) : Tree α β :=
  match all.filter fun a => !(ch a).isNil with
  | [a] => merge [a] (ch a)
  | _ => full ch

end

variable {t c : Tree α β} {k k' nk key rest : List α} {a b : α} {v : β}

theorem Solid.ne_nil (h : c.Solid) : c ≠ nil := by
  rintro rfl
  exact h

theorem wf_graft (hc : c.Solid) (hwf : c.WF) (key : List α) : (graft key c).WF := by
  unfold graft
  split
  · exact hwf
  case isFalse h => exact ⟨h, hc, hwf⟩

theorem graft_ne_nil (hc : c.Solid) (key : List α) : graft key c ≠ nil := by
  unfold graft
  split
  · exact hc.ne_nil
  · simp

theorem wf_merge {key : List α} (hkey : key ≠ []) (hne : c ≠ nil) (hwf : c.WF) :
    (merge key c).WF := by
  cases c with
  | nil => exact absurd rfl hne
  | value v => exact ⟨hkey, trivial, hwf⟩
  | short nk c => exact ⟨by simp [hkey], hwf.2.1, hwf.2.2⟩
  | full ch => exact ⟨hkey, trivial, hwf⟩

theorem merge_solid (hc : c.Solid) (key : List α) : merge key c = short key c := by
  cases c with
  | nil | value v | full ch => rfl
  | short nk c => exact hc.elim

theorem merge_ne_nil (key : List α) (c : Tree α β) : merge key c ≠ nil := by
  cases c <;> simp [merge]

section Collapse

variable {all : List α} {ch : α → Tree α β}

theorem eq_nil_of_filter (hall : ∀ a, a ∈ all) (h : (all.filter fun a => !(ch a).isNil) = [a]) :
    ch a ≠ nil ∧ ∀ b, b ≠ a → ch b = nil := by
  have hmem : ∀ b, ch b ≠ nil ↔ b = a := by
    intro b
    rw [← mem_singleton, ← h]
    simp [hall b]
  exact ⟨(hmem a).mpr rfl, fun b hb => by_contra fun hne => hb ((hmem b).mp hne)⟩

theorem wf_collapse (hall : ∀ a, a ∈ all) (hnd : all.Nodup) (hwf : ∀ a, (ch a).WF)
    (hne : ∃ a, ch a ≠ nil) : (collapse all ch).WF := by
  have hleft : ∀ b ∈ all.filter fun a => !(ch a).isNil, ch b ≠ nil := by simp
  unfold collapse
  cases hL : all.filter fun a => !(ch a).isNil with
  | nil =>
    obtain ⟨a, ha⟩ := hne
    have hmem : a ∈ all.filter fun a => !(ch a).isNil := by simp [hall a, ha]
    simp [hL] at hmem
  | cons b rest =>
    have hnodup : (b :: rest).Nodup := hL ▸ hnd.filter _
    rw [hL] at hleft
    cases rest with
    | nil => exact wf_merge (by simp) (hleft b (by simp)) (hwf b)
    | cons c rest =>
      have hbc : b ≠ c := by
        simp only [nodup_cons, mem_cons, not_or] at hnodup
        exact hnodup.1.1
      exact ⟨⟨b, c, hbc, hleft b (by simp), hleft c (by simp)⟩, hwf⟩

theorem collapse_ne_nil (ch : α → Tree α β) : collapse all ch ≠ nil := by
  unfold collapse
  split
  · exact merge_ne_nil _ _
  · simp

theorem collapse_eq_full (hall : ∀ a, a ∈ all) (hwf : (full ch).WF) :
    collapse all ch = full ch := by
  obtain ⟨⟨a, b, hab, ha, hb⟩, -⟩ := hwf
  unfold collapse
  split
  case _ c hc =>
    obtain ⟨-, hnil⟩ := eq_nil_of_filter hall hc
    have hac : a = c := by_contra fun h => ha (hnil a h)
    have hbc : b = c := by_contra fun h => hb (hnil b h)
    exact absurd (hac.trans hbc.symm) hab
  · rfl

end Collapse

theorem prefix_of_fork {p q r s : List α} {a b : α} (hab : a ≠ b) (h : q <+: p ++ a :: r)
    (h' : q <+: p ++ b :: s) : q <+: p := by
  rcases prefix_or_prefix_of_prefix h (prefix_append p _) with hq | ⟨x, rfl⟩
  · exact hq
  · cases x with
    | nil => simp
    | cons y x =>
      simp only [prefix_append_right_inj, cons_prefix_cons] at h h'
      exact absurd (h.1.symm.trans h'.1) hab

/-! ## Keys -/

variable [DecidableEq α]

def get : Tree α β → List α → Option β
  | nil, _ => none
  | value v, k => if k = [] then some v else none
  | short key c, k => (k.dropPrefix? key).bind fun rest => c.get rest
  | full _, [] => none
  | full ch, a :: k => (ch a).get k

/-- The key is neither a proper prefix nor a proper extension of one in the tree. -/
def Apart (t : Tree α β) (k : List α) : Prop := ∀ k', t.get k' ≠ none → k' <+: k ∨ k <+: k' → k' = k

/-! ## Words -/

theorem dropPrefix_eq_some {p k r : List α} : k.dropPrefix? p = some r ↔ k = p ++ r := by
  simp [dropPrefix?_eq_some_iff]

@[simp] theorem dropPrefix_append (p r : List α) : (p ++ r).dropPrefix? p = some r :=
  dropPrefix_eq_some.mpr rfl

theorem dropPrefix_cons (a b : α) (p k : List α) :
    (b :: k).dropPrefix? (a :: p) = if b = a then k.dropPrefix? p else none := by
  simp [dropPrefix?]

theorem dropPrefix_dropPrefix (p q k : List α) :
    ((k.dropPrefix? p).bind fun r => r.dropPrefix? q) = k.dropPrefix? (p ++ q) := by
  ext r
  simp only [Option.bind_eq_some_iff, dropPrefix_eq_some]
  constructor
  · rintro ⟨r', rfl, rfl⟩
    rw [append_assoc]
  · rintro rfl
    exact ⟨q ++ r, by rw [append_assoc], rfl⟩

def commonLen : List α → List α → Nat
  | a :: k, b :: l => if a = b then commonLen k l + 1 else 0
  | _, _ => 0

/-- Two words fall apart at the end of their common prefix. -/
theorem commonLen_spec (k l : List α) :
    k.take (commonLen k l) = l.take (commonLen k l) ∧ commonLen k l ≤ l.length ∧
      ∀ a ∈ (k.drop (commonLen k l)).head?, ∀ b ∈ (l.drop (commonLen k l)).head?, a ≠ b := by
  induction k generalizing l with
  | nil => simp [commonLen]
  | cons a k ih =>
    cases l with
    | nil => simp [commonLen]
    | cons b l =>
      by_cases h : a = b
      · obtain ⟨htake, hle, hne⟩ := ih l
        simp only [commonLen, h, if_true, take_succ_cons, drop_succ_cons,
          length_cons]
        exact ⟨by rw [htake], Nat.succ_le_succ hle, hne⟩
      · simp [commonLen, h]

theorem commonLen_append (l r : List α) : commonLen (l ++ r) l = l.length := by
  induction l with
  | nil => cases r <;> rfl
  | cons a l ih => simp [commonLen, ih]

theorem commonLen_fork {a b : α} (hab : a ≠ b) (p r s : List α) :
    commonLen (p ++ a :: r) (p ++ b :: s) = p.length := by
  induction p with
  | nil => simp [commonLen, hab]
  | cons c p ih => simp [commonLen, ih]

theorem prefix_of_commonLen {k l : List α} (h : l.length ≤ commonLen k l) : l <+: k := by
  obtain ⟨htake, -, -⟩ := commonLen_spec k l
  rw [take_of_length_le h] at htake
  exact htake ▸ take_prefix _ _

theorem commonLen_lt {k l : List α} (h : ∀ rest, k ≠ l ++ rest) : commonLen k l < l.length := by
  by_contra hle
  obtain ⟨rest, hrest⟩ := prefix_of_commonLen (Nat.not_lt.mp hle)
  exact h rest hrest.symm

/-! ## Values -/

def fork (a : α) (t : Tree α β) (b : α) (t' : Tree α β) : Tree α β :=
  full fun x => if x = a then t else if x = b then t' else nil

theorem get_graft (key : List α) (t : Tree α β) (k : List α) :
    (graft key t).get k = (k.dropPrefix? key).bind t.get := by
  unfold graft
  split
  case isTrue h => simp [h]
  case isFalse => rfl

theorem get_short_append (key : List α) (c : Tree α β) (rest : List α) :
    (short key c).get (key ++ rest) = c.get rest := by
  simp [get]

theorem get_short_eq_some :
    (short key c).get k = some v ↔ ∃ rest, k = key ++ rest ∧ c.get rest = some v := by
  simp [get, Option.bind_eq_some_iff, dropPrefix_eq_some]

theorem exists_get : (t : Tree α β) → t.WF → t ≠ nil → ∃ k v, t.get k = some v
  | nil, _, h => absurd rfl h
  | value v, _, _ => ⟨[], v, rfl⟩
  | short key c, ⟨_, hsolid, hc⟩, _ => by
    have hne : c ≠ nil := fun h => by rw [h] at hsolid; exact hsolid
    obtain ⟨k, v, hk⟩ := c.exists_get hc hne
    exact ⟨key ++ k, v, get_short_eq_some.mpr ⟨k, rfl, hk⟩⟩
  | full ch, ⟨⟨a, _, _, ha, _⟩, hch⟩, _ => by
    obtain ⟨k, v, hk⟩ := (ch a).exists_get (hch a) ha
    exact ⟨a :: k, v, hk⟩

theorem Apart.child (h : (short key c).Apart (key ++ rest)) : c.Apart rest := by
  intro k' hk' hpre
  have hget : (short key c).get (key ++ k') ≠ none := by rwa [get_short_append]
  have := h (key ++ k') hget (by simpa using hpre)
  exact append_cancel_left this

theorem Apart.branch {ch : α → Tree α β} (h : (full ch).Apart (a :: k)) : (ch a).Apart k := by
  intro k' hk' hpre
  have := h (a :: k') hk' (by simpa using hpre)
  exact tail_eq_of_cons_eq this

theorem Apart.eq_nil (h : (value v).Apart k) : k = [] :=
  (h [] (by simp [get]) (Or.inl nil_prefix)).symm

theorem Apart.ne_nil_of_get (h : t.Apart k) (hwf : t.WF) (hne : t ≠ nil) (hnil : t.get [] = none) :
    k ≠ [] := by
  rintro rfl
  obtain ⟨k, v, hk⟩ := t.exists_get hwf hne
  obtain rfl := h k (by simp [hk]) (Or.inr nil_prefix)
  simp [hnil] at hk

theorem Apart.ne_nil {ch : α → Tree α β} (h : (full ch).Apart k) (hwf : (full ch).WF) : k ≠ [] :=
  h.ne_nil_of_get hwf (by simp) rfl

/-! ## Insertion -/

def insert : Tree α β → List α → β → Tree α β
  | _, [], v => value v
  | nil, key, v => short key (value v)
  | value w, _, _ => value w
  | short nk c, key, v =>
    let m := commonLen key nk
    match key.drop m, nk.drop m with
    | rest, [] => short nk (c.insert rest v)
    | a :: kr, b :: nr => graft (key.take m) (fork a (graft kr (value v)) b (graft nr c))
    | [], _ :: _ => short nk c
  | full ch, a :: key, v => full (Function.update ch a ((ch a).insert key v))

theorem insert_nil_key (t : Tree α β) (v : β) : t.insert [] v = value v := by
  cases t <;> rfl

/-- A common prefix and two words that go on differently, or of which one ends. -/
theorem exists_common (key nk : List α) :
    ∃ p, key = p ++ key.drop (commonLen key nk) ∧ nk = p ++ nk.drop (commonLen key nk) ∧
      key.take (commonLen key nk) = p := by
  obtain ⟨htake, -, -⟩ := commonLen_spec key nk
  refine ⟨_, (take_append_drop _ _).symm, ?_, rfl⟩
  rw [htake, take_append_drop]

theorem get_fork {t' : Tree α β} (k : List α) : (fork a t b t').get k = match k with
      | [] => none
      | x :: k => if x = a then t.get k else if x = b then t'.get k else none := by
  cases k with
  | nil => rfl
  | cons x k =>
    simp only [fork, get]
    split
    · rfl
    · split <;> rfl

theorem get_leaf (key : List α) (v : β) (k : List α) :
    (graft key (value v)).get k = if k = key then some v else none := by
  rw [get_graft]
  cases hk : k.dropPrefix? key with
  | none =>
    have hne : k ≠ key := by
      rintro rfl
      simpa using hk.symm.trans (dropPrefix_eq_some.mpr (append_nil k).symm)
    simp [hne]
  | some r =>
    obtain rfl := dropPrefix_eq_some.mp hk
    simp [get]

theorem get_split {p kr nr : List α} (hab : a ≠ b) (k : List α) :
    (graft p (fork a (graft kr (value v)) b (graft nr c))).get k =
      if k = p ++ a :: kr then some v else (short (p ++ b :: nr) c).get k := by
  rw [get_graft, get, ← dropPrefix_dropPrefix]
  cases hk : k.dropPrefix? p with
  | none =>
    have hne : k ≠ p ++ a :: kr := by
      rintro rfl
      simp at hk
    simp [hne]
  | some r =>
    obtain rfl := dropPrefix_eq_some.mp hk
    simp only [Option.bind_some, get_fork, append_cancel_left_eq]
    cases r with
    | nil => simp [dropPrefix?]
    | cons x r =>
      by_cases hxa : x = a
      · simp [hxa, get_leaf, dropPrefix_cons, hab]
      · simp [hxa, dropPrefix_cons, get_graft]
        split <;> rfl

theorem insert_short_eq (nk : List α) (c : Tree α β) (x : α) (k : List α) (v : β) :
    (short nk c).insert (x :: k) v =
      match (x :: k).drop (commonLen (x :: k) nk), nk.drop (commonLen (x :: k) nk) with
      | rest, [] => short nk (c.insert rest v)
      | a :: kr, b :: nr =>
        graft ((x :: k).take (commonLen (x :: k) nk)) (fork a (graft kr (value v)) b (graft nr c))
      | [], _ :: _ => short nk c := by
  rw [insert]
  exact cons_ne_nil x k

/-- Insertion at an edge: below it or by splitting it, unless the key ends on it. -/
theorem insert_short (nk : List α) (c : Tree α β) (x : α) (k : List α) (v : β) :
    (∃ rest, x :: k = nk ++ rest ∧ (short nk c).insert (x :: k) v = short nk (c.insert rest v)) ∨
    (∃ p a kr b nr, a ≠ b ∧ x :: k = p ++ a :: kr ∧ nk = p ++ b :: nr ∧
      (short nk c).insert (x :: k) v = graft p (fork a (graft kr (value v)) b (graft nr c))) ∨
    (∃ b nr, nk = x :: k ++ b :: nr) := by
  obtain ⟨p, hk, hnk, hp⟩ := exists_common (x :: k) nk
  obtain ⟨-, -, hne⟩ := commonLen_spec (x :: k) nk
  rw [insert_short_eq, hp]
  cases hn : nk.drop (commonLen (x :: k) nk) with
  | nil =>
    rw [hn, append_nil] at hnk
    exact Or.inl ⟨_, hnk ▸ hk, rfl⟩
  | cons b nr =>
    rw [hn] at hnk
    cases hr : (x :: k).drop (commonLen (x :: k) nk) with
    | nil =>
      rw [hr, append_nil] at hk
      exact Or.inr (Or.inr ⟨b, nr, hk ▸ hnk⟩)
    | cons a kr =>
      rw [hr] at hk
      have hab : a ≠ b := hne a (by simp [hr]) b (by simp [hn])
      exact Or.inr (Or.inl ⟨p, a, kr, b, nr, hab, hk, hnk, rfl⟩)

theorem Apart.not_on_edge {nr : List α} (hap : (short nk c).Apart key)
    (hwf : (short nk c).WF) : nk ≠ key ++ b :: nr := by
  rintro rfl
  obtain ⟨k, v, hk⟩ := c.exists_get hwf.2.2 hwf.2.1.ne_nil
  have hget : (short (key ++ b :: nr) c).get (key ++ b :: nr ++ k) ≠ none := by
    rw [get_short_append, hk]
    simp
  have := hap _ hget (Or.inr ⟨b :: nr ++ k, by simp⟩)
  simp at this

theorem get_insert : (t : Tree α β) → (k : List α) → (v : β) → t.WF → t.Apart k →
    ∀ k', (t.insert k v).get k' = if k' = k then some v else t.get k'
  | t, [], v, hwf, hap, k' => by
    have hget : ∀ k', k' ≠ [] → t.get k' = none := fun k' hne => by
      by_contra h
      exact hne (hap k' h (Or.inr nil_prefix))
    by_cases hk : k' = []
    · simp [insert, get, hk]
    · simp [insert, get, hk, hget k' hk]
  | nil, a :: k, v, _, _, k' => by
    have := get_leaf (a :: k) v k'
    simpa [graft, insert, get] using this
  | value w, a :: k, v, _, hap, k' => absurd hap.eq_nil (by simp)
  | short nk c, a :: k, v, hwf, hap, k' => by
    rcases insert_short nk c a k v with
      ⟨rest, hkey, heq⟩ | ⟨p, x, kr, b, nr, hab, hkey, rfl, heq⟩ | ⟨b, nr, hnk⟩
    · rw [heq, hkey, get, get]
      cases hk' : k'.dropPrefix? nk with
      | none =>
        have hne : k' ≠ nk ++ rest := by
          rintro rfl
          simp at hk'
        simp [hne]
      | some r =>
        obtain rfl := dropPrefix_eq_some.mp hk'
        simpa using c.get_insert rest v hwf.2.2 (hkey ▸ hap).child r
    · rw [heq, get_split hab, hkey]
    · exact absurd hnk (hap.not_on_edge hwf)
  | full ch, a :: k, v, hwf, hap, k' => by
    cases k' with
    | nil => simp [insert, get]
    | cons x k' =>
      by_cases hx : x = a
      · subst hx
        simpa [insert, get] using (ch x).get_insert k v (hwf.2 x) hap.branch k'
      · simp [insert, get, hx]

theorem insert_ne_nil (t : Tree α β) (k : List α) (v : β) : t.insert k v ≠ nil := by
  cases k with
  | nil => simp [insert]
  | cons a k =>
    cases t with
    | nil => simp [insert]
    | value w => simp [insert]
    | short nk c =>
      rw [insert_short_eq]
      split
      · simp
      · unfold graft fork
        split <;> simp
      · simp
    | full ch => simp [insert]

theorem insert_solid (hc : c.Solid) : (c.insert k v).Solid := by
  cases k with
  | nil => simp [insert, Solid]
  | cons a k =>
    cases c with
    | nil => exact hc.elim
    | value w => trivial
    | short nk c => exact hc.elim
    | full ch => trivial

theorem wf_fork {t' : Tree α β} (hab : a ≠ b) (ht : t.WF) (ht' : t'.WF) (hne : t ≠ nil)
    (hne' : t' ≠ nil) : (fork a t b t').WF := by
  refine ⟨⟨a, b, hab, by simpa using hne, by simpa [hab.symm] using hne'⟩, fun x => ?_⟩
  dsimp only
  split
  · exact ht
  · split
    · exact ht'
    · trivial

theorem wf_insert : (t : Tree α β) → (k : List α) → (v : β) → t.WF → t.Apart k → (t.insert k v).WF
  | t, [], v, _, _ => by simp [insert, WF]
  | nil, a :: k, v, _, _ => by simp [insert, WF, Solid]
  | value w, a :: k, v, _, hap => by simp [insert, WF]
  | short nk c, a :: k, v, hwf, hap => by
    obtain ⟨hnk, hsolid, hc⟩ := hwf
    rcases insert_short nk c a k v with
      ⟨rest, hkey, heq⟩ | ⟨p, x, kr, b, nr, hab, hkey, rfl, heq⟩ | ⟨b, nr, hend⟩
    · rw [heq]
      exact ⟨hnk, insert_solid hsolid, c.wf_insert rest v hc (hkey ▸ hap).child⟩
    · rw [heq]
      have hleaf : (value v : Tree α β).Solid := trivial
      have hfork := wf_fork hab (wf_graft hleaf trivial kr) (wf_graft hsolid hc nr)
        (graft_ne_nil hleaf kr) (graft_ne_nil hsolid nr)
      exact wf_graft (c := fork _ _ _ _) trivial hfork p
    · exact absurd hend (hap.not_on_edge ⟨hnk, hsolid, hc⟩)
  | full ch, a :: k, v, hwf, hap => by
    obtain ⟨⟨x, y, hxy, hx, hy⟩, hch⟩ := hwf
    have hne : ∀ z, ch z ≠ nil → Function.update ch a ((ch a).insert k v) z ≠ nil :=
      (Function.forall_update_iff ch fun z t => ch z ≠ nil → t ≠ nil).mpr
        ⟨fun _ => insert_ne_nil (ch a) k v, fun _ _ => id⟩
    refine ⟨⟨x, y, hxy, hne x hx, hne y hy⟩, ?_⟩
    exact (Function.forall_update_iff ch fun _ t => t.WF).mpr
      ⟨(ch a).wf_insert k v (hch a) hap.branch, fun z _ => hch z⟩

/-! ## Removal -/

section Erase

variable (all : List α)

/-- Removal; `all` lists the alphabet. -/
def erase : Tree α β → List α → Tree α β
  | nil, _ => nil
  | value _, _ => nil
  | short nk c, key =>
    if commonLen key nk < nk.length then short nk c
    else if commonLen key nk = key.length then nil
    else merge nk (c.erase (key.drop nk.length))
  | full ch, [] => full ch
  | full ch, a :: key => collapse all (Function.update ch a ((ch a).erase key))

theorem get_merge (key : List α) (c : Tree α β) (k : List α) :
    (merge key c).get k = (short key c).get k := by
  cases c with
  | short nk c =>
    simp only [merge, get, ← dropPrefix_dropPrefix]
    cases k.dropPrefix? key <;> rfl
  | nil | value v | full ch => rfl

variable {all} {ch : α → Tree α β}

theorem get_collapse (hall : ∀ a, a ∈ all) (k : List α) :
    (collapse all ch).get k = (full ch).get k := by
  unfold collapse
  split
  case _ a h =>
    obtain ⟨-, hnil⟩ := eq_nil_of_filter hall h
    rw [get_merge]
    cases k with
    | nil => rfl
    | cons b k =>
      simp only [get, dropPrefix_cons]
      by_cases hb : b = a
      · simp [hb]
      · simp [hb, hnil b hb, get]
  · rfl

/-- Removal at an edge: nothing, all of it, or below it. -/
theorem erase_short (all : List α) (nk : List α) (c : Tree α β) (key : List α) :
    ((∀ rest, key ≠ nk ++ rest) ∧ (short nk c).erase all key = short nk c) ∨
    (key = nk ∧ (short nk c).erase all key = nil) ∨
    (∃ a rest, key = nk ++ a :: rest ∧
      (short nk c).erase all key = merge nk (c.erase all (a :: rest))) := by
  by_cases hpre : nk <+: key
  · obtain ⟨rest, rfl⟩ := hpre
    have hlen : ¬ commonLen (nk ++ rest) nk < nk.length := by simp [commonLen_append]
    rw [erase, if_neg hlen, commonLen_append]
    cases rest with
    | nil => exact Or.inr (Or.inl ⟨by simp, by simp⟩)
    | cons a rest => exact Or.inr (Or.inr ⟨a, rest, rfl, by simp⟩)
  · have hne : ∀ rest, key ≠ nk ++ rest := fun rest h => hpre ⟨rest, h.symm⟩
    exact Or.inl ⟨hne, by rw [erase, if_pos (commonLen_lt hne)]⟩

theorem erase_ne_nil (k : List α) : (full ch).erase all k ≠ nil := by
  cases k with
  | nil => simp [erase]
  | cons a k => exact collapse_ne_nil _

theorem erase_solid_ne_nil {rest : List α} (hc : c.Solid) (hap : c.Apart (a :: rest)) :
    c.erase all (a :: rest) ≠ nil := by
  cases c with
  | nil => exact hc.elim
  | value v => simpa using hap.eq_nil
  | short nk c => exact hc.elim
  | full ch => exact erase_ne_nil _

theorem get_erase (hall : ∀ a, a ∈ all) : (t : Tree α β) → (k : List α) → t.WF → t.Apart k →
    ∀ k', (t.erase all k).get k' = if k' = k then none else t.get k'
  | nil, k, _, _, k' => by simp [erase, get]
  | value v, k, _, hap, k' => by
    obtain rfl := hap.eq_nil
    simp [erase, get]
  | short nk c, k, hwf, hap, k' => by
    rcases erase_short all nk c k with ⟨hne, heq⟩ | ⟨rfl, heq⟩ | ⟨a, rest, rfl, heq⟩
    · rw [heq]
      have hk : (short nk c).get k = none := by
        by_contra h
        obtain ⟨v, hv⟩ := Option.ne_none_iff_exists'.mp h
        obtain ⟨rest, hrest, -⟩ := get_short_eq_some.mp hv
        exact hne rest hrest
      split
      case isTrue h => rw [h, hk]
      case isFalse => rfl
    · rw [heq, get]
      split
      · rfl
      case isFalse hne =>
        by_contra h
        obtain ⟨v, hv⟩ := Option.ne_none_iff_exists'.mp (Ne.symm h)
        obtain ⟨rest, rfl, -⟩ := get_short_eq_some.mp hv
        exact hne (hap _ (by simp [hv]) (Or.inr (prefix_append _ _)))
    · rw [heq, get_merge, get, get]
      cases hk' : k'.dropPrefix? nk with
      | none =>
        simp
      | some r =>
        obtain rfl := dropPrefix_eq_some.mp hk'
        simpa using c.get_erase hall (a :: rest) hwf.2.2 hap.child r
  | full ch, [], hwf, hap, k' => absurd rfl (hap.ne_nil hwf)
  | full ch, a :: k, hwf, hap, k' => by
    rw [erase, get_collapse hall]
    cases k' with
    | nil => simp [get]
    | cons x k' =>
      by_cases hx : x = a
      · subst hx
        simpa [get] using (ch x).get_erase hall k (hwf.2 x) hap.branch k'
      · simp [get, hx]

theorem wf_erase (hall : ∀ a, a ∈ all) (hnd : all.Nodup) : (t : Tree α β) → (k : List α) → t.WF →
    t.Apart k → (t.erase all k).WF
  | nil, k, _, _ => by simp [erase, WF]
  | value v, k, _, _ => by simp [erase, WF]
  | short nk c, k, hwf, hap => by
    rcases erase_short all nk c k with ⟨-, heq⟩ | ⟨-, heq⟩ | ⟨a, rest, rfl, heq⟩
    · rw [heq]
      exact hwf
    · rw [heq]
      trivial
    · rw [heq]
      obtain ⟨hnk, hsolid, hc⟩ := hwf
      exact wf_merge hnk (erase_solid_ne_nil hsolid hap.child) (c.wf_erase hall hnd _ hc hap.child)
  | full ch, [], hwf, _ => by simpa [erase] using hwf
  | full ch, a :: k, hwf, hap => by
    obtain ⟨⟨x, y, hxy, hx, hy⟩, hch⟩ := hwf
    refine wf_collapse hall hnd ?_ ?_
    · exact (Function.forall_update_iff ch fun _ t => t.WF).mpr
        ⟨(ch a).wf_erase hall hnd k (hch a) hap.branch, fun z _ => hch z⟩
    · -- One of two children is not at `a`.
      by_cases hxa : x = a
      · exact ⟨y, by simpa [hxa ▸ hxy.symm] using hy⟩
      · exact ⟨x, by simpa [hxa] using hx⟩

end Erase

/-! ## A tree is determined by its values -/

theorem eq_nil_of_get (hwf : t.WF) (h : ∀ k, t.get k = none) : t = nil := by
  by_contra hne
  obtain ⟨k, v, hk⟩ := t.exists_get hwf hne
  simp [h k] at hk

theorem get_short_nil (hkey : key ≠ []) : (short key c).get [] = none := by
  obtain ⟨a, key, rfl⟩ := exists_cons_of_ne_nil hkey
  simp [get, dropPrefix?]

theorem exists_fork {ch : α → Tree α β} (hwf : (full ch).WF) :
    ∃ a b r s, a ≠ b ∧ (full ch).get (a :: r) ≠ none ∧ (full ch).get (b :: s) ≠ none := by
  obtain ⟨⟨a, b, hab, ha, hb⟩, hch⟩ := hwf
  obtain ⟨r, v, hr⟩ := (ch a).exists_get (hch a) ha
  obtain ⟨s, w, hs⟩ := (ch b).exists_get (hch b) hb
  exact ⟨a, b, r, s, hab, by simp [get, hr], by simp [get, hs]⟩

theorem prefix_of_get {q : List α} (hwf : (short nk c).WF)
    (h : ∀ k, (short nk c).get k ≠ none → q <+: k) : q <+: nk := by
  obtain ⟨-, hsolid, hc⟩ := hwf
  cases c with
  | nil => exact hsolid.elim
  | short nk' c => exact hsolid.elim
  | value v => exact h nk (by simpa [get] using (dropPrefix_eq_some (p := nk)).mpr (by simp))
  | full ch =>
    obtain ⟨a, b, r, s, hab, hr, hs⟩ := exists_fork hc
    refine prefix_of_fork hab (h (nk ++ a :: r) ?_) (h (nk ++ b :: s) ?_)
    · rwa [get_short_append]
    · rwa [get_short_append]

theorem prefix_of_get_short (h : (short nk c).get k ≠ none) : nk <+: k := by
  obtain ⟨v, hv⟩ := Option.ne_none_iff_exists'.mp h
  obtain ⟨rest, rfl, -⟩ := get_short_eq_some.mp hv
  exact prefix_append _ _

theorem short_ne_full {ch : α → Tree α β} (hnk : nk ≠ []) (hch : (full ch).WF)
    (h : ∀ k, (short nk c).get k = (full ch).get k) : False := by
  obtain ⟨a, b, r, s, hab, hr, hs⟩ := exists_fork hch
  rw [← h] at hr hs
  have hpre : nk <+: [] := prefix_of_fork hab (prefix_of_get_short hr) (prefix_of_get_short hs)
  exact hnk (prefix_nil.mp hpre)

theorem ext_get : (t t' : Tree α β) → t.WF → t'.WF → (∀ k, t.get k = t'.get k) → t = t'
  | nil, t', _, hwf', h => (eq_nil_of_get hwf' fun k => (h k).symm).symm
  | t, nil, hwf, _, h => eq_nil_of_get hwf h
  | value v, value w, _, _, h => by simpa [get] using h []
  | value v, short nk c, _, hwf', h => by simpa [get] using (h []).trans (get_short_nil hwf'.1)
  | short nk c, value v, hwf, _, h => by simpa [get] using (h []).symm.trans (get_short_nil hwf.1)
  | value v, full ch, _, _, h => by simpa [get] using h []
  | full ch, value v, _, _, h => by simpa [get] using h []
  | short nk c, full ch, hwf, hwf', h => (short_ne_full hwf.1 hwf' h).elim
  | full ch, short nk c, hwf, hwf', h => (short_ne_full hwf'.1 hwf fun k => (h k).symm).elim
  | short nk c, short nk' c', hwf, hwf', h => by
    have hle : nk' <+: nk := prefix_of_get hwf fun k hk => prefix_of_get_short (h k ▸ hk)
    have hge : nk <+: nk' := prefix_of_get hwf' fun k hk => prefix_of_get_short (h k ▸ hk)
    obtain rfl := hle.eq_of_length_le hge.length_le
    rw [ext_get c c' hwf.2.2 hwf'.2.2 fun k => by simpa [get_short_append] using h (nk' ++ k)]
  | full ch, full ch', hwf, hwf', h => by
    rw [funext fun a => ext_get (ch a) (ch' a) (hwf.2 a) (hwf'.2 a) fun k => h (a :: k)]

end Tree

end GethComments.Radix
