import GethComments.Trie.Encoding

/-!
# Nodes and their hashes

`trie/node.go` and `trie/hasher.go`. A node is generic in its keys and flags: live nodes have keys
in hex, collapsed ones have them in compact form. Above the nodes, a radix tree over nibbles is what
a node stands for, and it has an encoding of its own.

* `enc`: the encoding of a tree, with large subtrees replaced by their hashes;
* `Live`: a node stands for a tree; its cached hashes are right, and its hash nodes are in the
  database;
* `hash_live`: hashing gives the hash of the encoding, and caches all hashes below.
-/

namespace GethComments.Trie

open GethComments.Rlp

/-- Caching-related metadata about a node. -/
structure NodeFlag where
  /-- The cached hash of the node, which may be nil. -/
  hash : Option Bytes
  /-- Whether the node has changes that must be written to the database. -/
  dirty : Bool
  deriving DecidableEq, Repr

def newFlag : NodeFlag := ⟨none, true⟩

inductive Node (κ φ : Type) where
  | nil
  | short (key : κ) (val : Node κ φ) (flags : φ)
  | full (children : Fin 17 → Node κ φ) (flags : φ)
  | hash (h : Bytes)
  | value (v : Bytes)

abbrev LiveNode := Node Hex NodeFlag

/-- A node with keys as byte strings, as it is encoded. -/
abbrev Collapsed := Node Bytes NodeFlag

namespace Node

variable {φ : Type}

def isNil {κ : Type} : Node κ φ → Bool
  | nil => true
  | short _ _ _ | full _ _ | hash _ | value _ => false

/-- The same node, with its keys as byte strings. -/
def plain : LiveNode → Collapsed
  | nil => nil
  | short key val flags => short (key.map fun a => UInt8.ofNat a.val) val.plain flags
  | full ch flags => full (fun i => (ch i).plain) flags
  | hash h => hash h
  | value v => value v

/-- `rlp.Encode`. A nil interface is an empty list, but `EncodeRLP` of a full node puts
`nilValueNode` in its place. -/
def rlp : Node Bytes φ → Bytes
  | nil => encodeList []
  | short key val _ => encodeList [encodeString key, val.rlp]
  | full ch _ => encodeList ((List.finRange 17).map fun i =>
      if (ch i).isNil then encodeString [] else (ch i).rlp)
  | hash h => encodeString h
  | value v => encodeString v

/-- The hash that a node stores after hashing. -/
def asHash {κ : Type} : Node κ φ → Option Bytes
  | hash h => some h
  | nil | short _ _ _ | full _ _ | value _ => none

/-- `cache`, with the hash only: a node that has none. -/
def unhashed : LiveNode → Bool
  | short _ _ flags | full _ flags => flags.hash.isNone
  | nil | hash _ | value _ => false

end Node

section Hasher

variable [HashFns]

/-- `shortnodeToHash` and `fullnodeToHash`: nodes smaller than 32 bytes are stored inside their
parent. -/
def nodeToHash (n : Collapsed) (force : Bool) : Collapsed :=
  if n.rlp.length < 32 ∧ force = false then n else .hash (HashFns.keccak256 n.rlp)

/-- A child in `hashFullNodeChildren`: the last one is left as it is. -/
def collapseChild (i : Fin 17) (child : LiveNode) (hashed : Collapsed) : Collapsed :=
  if i = 16 then child.plain else if child.isNil then .value [] else hashed

def cacheChild (i : Fin 17) (child cached : LiveNode) : LiveNode :=
  if i = 16 ∨ child.isNil = true then child else cached

/-- `hasher.hash`: the hashed node, and the node with its hashes cached. -/
def hash : LiveNode → Bool → Collapsed × LiveNode
  | .short key val flags, force =>
    match flags.hash with
    | some h => (.hash h, .short key val flags)
    | none =>
      -- `hashShortNodeChildren`; values and hashes are left as they are.
      let (collapsed, cached) := hash val false
      let hashed := nodeToHash (.short (hexToCompact key) collapsed flags) force
      (hashed, .short key cached { flags with hash := hashed.asHash })
  | .full ch flags, force =>
    match flags.hash with
    | some h => (.hash h, .full ch flags)
    | none =>
      -- `hashFullNodeChildren`
      let collapsed := fun i => collapseChild i (ch i) (hash (ch i) false).1
      let cached := fun i => cacheChild i (ch i) (hash (ch i) false).2
      let hashed := nodeToHash (.full collapsed flags) force
      (hashed, .full cached { flags with hash := hashed.asHash })
  | .nil, _ => (.nil, .nil)
  | .hash h, _ => (.hash h, .hash h)
  | .value v, _ => (.value v, .value v)

/-- The collapsed node of `hashShortNodeChildren` and `hashFullNodeChildren`. -/
def collapse : LiveNode → Collapsed
  | .short key val flags => .short (hexToCompact key) (hash val false).1 flags
  | .full ch flags => .full (fun i => collapseChild i (ch i) (hash (ch i) false).1) flags
  | n => n.plain

/-- `proofHash`: the collapsed node, and the hashed one, unless it is smaller than 32 bytes. -/
def proofHash (n : LiveNode) : Collapsed × Collapsed :=
  match n with
  | .short _ _ _ | .full _ _ => (collapse n, nodeToHash (collapse n) false)
  | n => (n.plain, n.plain)

end Hasher

/-! ## Trees -/

/-- What a node stands for. -/
abbrev Tree := Radix.Tree Nibble Bytes

/-- A tree in minimal form, whose keys are terminated and whose values are not empty. -/
structure Sound (t : Tree) : Prop where
  wf : t.WF
  hexed : ∀ k, t.get k ≠ none → Hexed k
  filled : ∀ k, t.get k ≠ some []

section Sound

variable {t c : Tree} {ch : Nibble → Tree} {key : Hex}

theorem Sound.child (h : Sound (.short key c)) : Sound c := by
  have hget := Radix.Tree.get_short_append key c
  refine ⟨h.wf.2.2, fun k hk => ?_, fun k => ?_⟩
  · exact (h.hexed (key ++ k) (by rwa [hget])).right key
  · rw [← hget]
    exact h.filled _

theorem Sound.branch (h : Sound (.full ch)) (a : Nibble) : Sound (ch a) :=
  ⟨h.wf.2 a, fun k hk => (h.hexed (a :: k) hk).tail, fun k => h.filled (a :: k)⟩

theorem eq_value_of_get (hwf : t.WF) (h : ∀ k, t.get k ≠ none → k = []) :
    t = .nil ∨ ∃ v, t = .value v := by
  cases t with
  | nil => exact Or.inl rfl
  | value v => exact Or.inr ⟨v, rfl⟩
  | short key c =>
    obtain ⟨k, v, hk⟩ := Radix.Tree.exists_get _ hwf (by simp)
    obtain rfl := h k (by simp [hk])
    simp [Radix.Tree.get_short_nil hwf.1] at hk
  | full ch =>
    obtain ⟨k, v, hk⟩ := Radix.Tree.exists_get _ hwf (by simp)
    obtain rfl := h k (by simp [hk])
    simp [Radix.Tree.get] at hk

theorem Sound.last (h : Sound (.full ch)) : ch 16 = .nil ∨ ∃ v, ch 16 = .value v :=
  eq_value_of_get (h.wf.2 16) fun k hk => (h.hexed (16 :: k) hk).eq_nil

theorem Sound.apart (h : Sound t) (hnil : t.get [] = none) (hk : Hexed key) (hne : key ≠ []) :
    t.Apart key := by
  rintro k' hk' (hpre | hpre)
  · have hne' : k' ≠ [] := by
      rintro rfl
      exact hk' hnil
    exact (h.hexed k' hk').eq_of_begins hk hne' hpre
  · exact (hk.eq_of_begins (h.hexed k' hk') hne hpre).symm

end Sound

def branches : Tree → Bool
  | .short _ _ | .full _ => true
  | .nil | .value _ => false

/-- A branching node of the tree. -/
inductive NodeOf : Tree → Tree → Prop
  | self {t : Tree} : branches t = true → NodeOf t t
  | short {u c : Tree} {key : Hex} : NodeOf u c → NodeOf u (.short key c)
  | full {u : Tree} {ts : Nibble → Tree} (i : Nibble) : NodeOf u (ts i) → NodeOf u (.full ts)

section Enc

variable [HashFns]

/-- A subtree as a part of its parent. -/
def link (t : Tree) (e : Bytes) : Bytes :=
  if branches t ∧ 32 ≤ e.length then encodeString (HashFns.keccak256 e) else e

def enc : Tree → Bytes
  | .nil => encodeString []
  | .value v => encodeString v
  | .short key c => encodeList [encodeString (hexToCompact key), link c (enc c)]
  | .full ch => encodeList ((List.finRange 17).map fun i => link (ch i) (enc (ch i)))

def treeHash (t : Tree) : Bytes := HashFns.keccak256 (enc t)

/-- The tree is stored under its own hash: the root is, and every large subtree. -/
def Sealed (root : Bool) (t : Tree) : Prop := branches t ∧ (root = true ∨ 32 ≤ (enc t).length)

instance (root : Bool) (t : Tree) : Decidable (Sealed root t) :=
  inferInstanceAs (Decidable (_ ∧ _))

theorem link_of_sealed {t : Tree} (h : Sealed false t) :
    link t (enc t) = encodeString (treeHash t) := by
  have : 32 ≤ (enc t).length := h.2.resolve_left (by simp)
  simp [link, h.1, this, treeHash]

theorem link_of_not_sealed {t : Tree} (h : ¬ Sealed false t) : link t (enc t) = enc t := by
  refine if_neg fun hl => h ⟨hl.1, Or.inr hl.2⟩

/-- The node of a tree, as it is read from the database: sealed subtrees are hashes. -/
def loaded : Option Bytes → Tree → LiveNode
  | _, .nil => .nil
  | _, .value v => .value v
  | hash, .short key c =>
    .short key (if Sealed false c then .hash (treeHash c) else loaded none c) ⟨hash, false⟩
  | hash, .full ch =>
    .full (fun i => if Sealed false (ch i) then .hash (treeHash (ch i)) else loaded none (ch i))
      ⟨hash, false⟩

/-! ## Live nodes -/

variable (db : Bytes → Option LiveNode)

/-- The nodes of a tree that are stored: the root, and every sealed one. -/
def ToStore (root : Bool) (t u : Tree) : Prop := NodeOf u t ∧ (Sealed false u ∨ root = true ∧ u = t)

/-- All nodes of the tree that are stored are in the database. -/
def Held (root : Bool) (t : Tree) : Prop :=
  ∀ u, ToStore root t u → db (treeHash u) = some (loaded (some (treeHash u)) u)

/-- A cached hash is right, and a clean node is in the database. -/
structure Cached (root : Bool) (flags : NodeFlag) (t : Tree) : Prop where
  hash_eq : ∀ h, flags.hash = some h → h = treeHash t ∧ Sealed root t
  held : flags.dirty = false → Held db root t

/-- The hash of the node is cached, if it is to be stored under it. -/
def Hashed (root : Bool) (n : LiveNode) (t : Tree) : Prop := Sealed root t → n.unhashed = false

/-- The node stands for the tree. -/
inductive Live : Bool → LiveNode → Tree → Prop
  | nil {root : Bool} : Live root .nil .nil
  | value {root : Bool} {v : Bytes} : Live root (.value v) (.value v)
  | short {root : Bool} {key : Hex} {n : LiveNode} {flags : NodeFlag} {t : Tree} :
    Live false n t → Cached db root flags (.short key t) →
    (flags.hash ≠ none → Hashed false n t) → Live root (.short key n flags) (.short key t)
  | full {root : Bool} {ch : Fin 17 → LiveNode} {flags : NodeFlag} {ts : Nibble → Tree} :
    (∀ i, Live false (ch i) (ts i)) → Cached db root flags (.full ts) →
    (flags.hash ≠ none → ∀ i, Hashed false (ch i) (ts i)) → Live root (.full ch flags) (.full ts)
  | hash {root : Bool} {t : Tree} :
    Sealed root t → Held db root t → Live root (.hash (treeHash t)) t

variable {db} {root : Bool} {n : LiveNode} {t : Tree}

theorem cached_newFlag (t : Tree) : Cached db root newFlag t :=
  ⟨fun _ h => (nomatch h), fun h => (nomatch h)⟩

theorem Live.newShort {key : Hex} (h : Live db false n t) :
    Live db root (.short key n newFlag) (.short key t) :=
  .short h (cached_newFlag _) fun h => (h rfl).elim

variable {ts : Nibble → Tree} {u : Tree} {m : Collapsed}

theorem Live.newFull {ch : Fin 17 → LiveNode} (h : ∀ i, Live db false (ch i) (ts i)) :
    Live db root (.full ch newFlag) (.full ts) :=
  .full h (cached_newFlag _) fun h => (h rfl).elim

theorem Live.isNil (h : Live db root n t) : n.isNil = t.isNil := by
  cases h with
  | nil | value | short | full => rfl
  | hash hs =>
    cases t with
    | nil | value v => simp [Sealed, branches] at hs
    | short key c => rfl
    | full ch => rfl

theorem toStore_of_sealed (hs : Sealed root t) : ToStore root t t := by
  refine ⟨.self hs.1, ?_⟩
  rcases hs.2 with hroot | hlen
  · exact Or.inr ⟨hroot, rfl⟩
  · exact Or.inl ⟨hs.1, Or.inr hlen⟩

theorem ToStore.sealed_of_false (h : ToStore false t u) : Sealed false u :=
  h.2.resolve_right fun hr => (nomatch hr.1)

theorem ToStore.short {c : Tree} (h : ToStore false c u) (key : Hex) :
    ToStore root (.short key c) u :=
  ⟨.short h.1, Or.inl h.sealed_of_false⟩

theorem ToStore.full (i : Nibble) (h : ToStore false (ts i) u) : ToStore root (.full ts) u :=
  ⟨.full i h.1, Or.inl h.sealed_of_false⟩

theorem Held.child {key : Hex} {c : Tree} (h : Held db root (.short key c)) : Held db false c :=
  fun u hu => h u (hu.short key)

theorem Held.branch (h : Held db root (.full ts)) (i : Nibble) : Held db false (ts i) :=
  fun u hu => h u (hu.full i)

theorem Held.get (h : Held db root t) (hs : Sealed root t) :
    db (treeHash t) = some (loaded (some (treeHash t)) t) :=
  h t (toStore_of_sealed hs)

theorem hashed_loaded :
    Hashed false (if Sealed false t then .hash (treeHash t) else loaded none t) t := by
  intro hs
  simp [hs, Node.unhashed]

/-- The node that is read from the database stands for the tree. -/
theorem live_loaded (t : Tree) : ∀ {root : Bool} {hash : Option Bytes}, Held db root t →
    (∀ h, hash = some h → h = treeHash t ∧ Sealed root t) → Live db root (loaded hash t) t := by
  induction t with
  | nil => exact fun _ _ => .nil
  | value v => exact fun _ _ => .value
  | short key c ih =>
    intro root hash hheld hhash
    refine .short ?_ ⟨hhash, fun _ => hheld⟩ fun _ => hashed_loaded
    split
    case isTrue hs => exact .hash hs hheld.child
    case isFalse => exact ih hheld.child fun _ h => (nomatch h)
  | full ts ih =>
    intro root hash hheld hhash
    refine .full (fun i => ?_) ⟨hhash, fun _ => hheld⟩ fun _ i => hashed_loaded
    split
    case isTrue hs => exact .hash hs (hheld.branch i)
    case isFalse => exact ih i (hheld.branch i) fun _ h => (nomatch h)

theorem Held.live (h : Held db root t) (hs : Sealed root t) :
    Live db root (loaded (some (treeHash t)) t) t :=
  live_loaded t h fun _ heq => ⟨(Option.some.inj heq).symm, hs⟩

/-! ## Hashing -/

/-- The hashed form of a node: its hash, or a node with the encoding of the tree. -/
structure Stands (root : Bool) (m : Collapsed) (t : Tree) : Prop where
  isNil : m.isNil = false
  sealed : Sealed root t → m = .hash (treeHash t)
  rlp : ¬ Sealed root t → m.rlp = enc t

theorem Stands.link (h : Stands false m t) : m.rlp = link t (enc t) := by
  by_cases hs : Sealed false t
  · rw [link_of_sealed hs, h.sealed hs, Node.rlp]
  · rw [link_of_not_sealed hs, h.rlp hs]

theorem nodeToHash_eq (hrlp : m.rlp = enc t) (hb : branches t = true) :
    nodeToHash m root = if Sealed root t then .hash (treeHash t) else m := by
  have hiff : (m.rlp.length < 32 ∧ root = false) ↔ ¬ Sealed root t := by
    simp only [Sealed, hb, hrlp, true_and, not_or, Bool.not_eq_true, not_le]
    exact and_comm
  rw [nodeToHash, hrlp] at *
  by_cases hs : Sealed root t
  · simp [hiff, hs, treeHash]
  · simp [hiff, hs]

theorem stands_nodeToHash (hm : m.isNil = false) (hrlp : m.rlp = enc t) (hb : branches t = true) :
    Stands root (nodeToHash m root) t := by
  rw [nodeToHash_eq hrlp hb]
  by_cases hs : Sealed root t
  · exact ⟨by simp [hs, Node.isNil], fun _ => by simp [hs], fun h => absurd hs h⟩
  · exact ⟨by simpa [hs] using hm, fun h => absurd h hs, fun _ => by simpa [hs] using hrlp⟩

theorem cached_nodeToHash (hm : m.asHash = none) (hrlp : m.rlp = enc t) (hb : branches t = true)
    {flags : NodeFlag} (hc : Cached db root flags t) :
    Cached db root { flags with hash := (nodeToHash m root).asHash } t ∧
      (Sealed root t → (nodeToHash m root).asHash.isNone = false) := by
  rw [nodeToHash_eq hrlp hb]
  by_cases hs : Sealed root t
  · simp only [hs, if_true, Node.asHash]
    exact ⟨⟨fun h heq => ⟨(Option.some.inj heq).symm, hs⟩, hc.held⟩, fun _ => rfl⟩
  · simp only [hs, if_false, hm]
    exact ⟨⟨fun h heq => (nomatch heq), hc.held⟩, fun h => h.elim⟩

theorem not_sealed_value {v : Bytes} : ¬ Sealed root (.value v) := by simp [Sealed, branches]

theorem not_sealed_nil : ¬ Sealed root .nil := by simp [Sealed, branches]

theorem rlp_collapseChild {i : Fin 17} (hlive : Live db false n t)
    (hlast : i = 16 → t = .nil ∨ ∃ v, t = .value v) (hst : t ≠ .nil → Stands false m t) :
    (if (collapseChild i n m).isNil then encodeString [] else (collapseChild i n m).rlp) =
      link t (enc t) := by
  unfold collapseChild
  by_cases hi : i = 16
  · rcases hlast hi with rfl | ⟨v, rfl⟩
    · cases hlive with
      | nil => simp [hi, Node.plain, Node.isNil, link, branches, enc]
      | hash hs => exact absurd hs not_sealed_nil
    · cases hlive with
      | value => simp [hi, Node.plain, Node.isNil, Node.rlp, link, branches, enc]
      | hash hs => exact absurd hs not_sealed_value
  · by_cases hnil : t = .nil
    · have hn : n.isNil = true := by rw [hlive.isNil, hnil, Radix.Tree.isNil]
      simp only [hi, hn, if_true, if_false]
      simp [hnil, Node.isNil, Node.rlp, link, branches, enc]
    · have hn : n.isNil = false := by rw [hlive.isNil, Radix.Tree.isNil_eq_false]; exact hnil
      simp [hi, hn, (hst hnil).isNil, (hst hnil).link]

theorem live_cacheChild {i : Fin 17} {m : LiveNode} (hlive : Live db false n t)
    (hlast : i = 16 → t = .nil ∨ ∃ v, t = .value v)
    (hm : t ≠ .nil → Live db false m t ∧ Hashed false m t) :
    Live db false (cacheChild i n m) t ∧ Hashed false (cacheChild i n m) t := by
  unfold cacheChild
  split
  case isTrue h =>
    have hns : ¬ Sealed false t := by
      rcases h with hi | hnil
      · rcases hlast hi with rfl | ⟨v, rfl⟩
        · exact not_sealed_nil
        · exact not_sealed_value
      · rw [hlive.isNil] at hnil
        cases t with
        | nil => exact not_sealed_nil
        | value v => exact not_sealed_value
        | short key c => cases hnil
        | full ch => cases hnil
    exact ⟨hlive, fun hs => absurd hs hns⟩
  case isFalse h =>
    refine hm fun hnil => h (Or.inr ?_)
    rw [hlive.isNil, hnil, Radix.Tree.isNil]

theorem rlp_short (h : Stands false m t) (key : Hex) (flags : NodeFlag) :
    (Node.short (hexToCompact key) m flags).rlp = enc (.short key t) := by
  rw [Node.rlp, enc, h.link]

theorem rlp_full {ch : Fin 17 → LiveNode} (ht : Sound (.full ts))
    (hn : ∀ i, Live db false (ch i) (ts i))
    (hst : ∀ i, ts i ≠ .nil → Stands false (hash (ch i) false).1 (ts i)) (flags : NodeFlag) :
    (Node.full (fun i => collapseChild i (ch i) (hash (ch i) false).1) flags).rlp =
      enc (.full ts) := by
  rw [Node.rlp, enc]
  congr 2
  funext i
  exact rlp_collapseChild (hn i) (fun hi => hi ▸ ht.last) (hst i)

theorem hash_live (h : Live db root n t) (ht : Sound t) (hne : t ≠ .nil) :
    Stands root (hash n root).1 t ∧ Live db root (hash n root).2 t ∧
      Hashed root (hash n root).2 t := by
  induction h with
  | nil => exact absurd rfl hne
  | value =>
    exact ⟨⟨rfl, fun h => absurd h not_sealed_value, fun _ => rfl⟩, .value,
      fun h => absurd h not_sealed_value⟩
  | hash hs hheld => exact ⟨⟨rfl, fun _ => rfl, fun h => absurd hs h⟩, .hash hs hheld, fun _ => rfl⟩
  | @short root key n flags t hn hc hh ih =>
    cases hf : flags.hash with
    | some h =>
      obtain ⟨rfl, hs⟩ := hc.hash_eq h hf
      simp only [hash, hf]
      exact ⟨⟨rfl, fun _ => rfl, fun h => absurd hs h⟩, .short hn hc hh, fun _ => by
        simp [Node.unhashed, hf]⟩
    | none =>
      obtain ⟨hst, hlive, hhashed⟩ := ih ht.child ht.wf.2.1.ne_nil
      have hrlp := rlp_short hst key flags
      obtain ⟨hc', hsome⟩ := cached_nodeToHash rfl hrlp rfl hc
      simp only [hash, hf]
      exact ⟨stands_nodeToHash rfl hrlp rfl, .short hlive hc' fun _ => hhashed, hsome⟩
  | @full root ch flags ts hn hc hh ih =>
    cases hf : flags.hash with
    | some h =>
      obtain ⟨rfl, hs⟩ := hc.hash_eq h hf
      simp only [hash, hf]
      exact ⟨⟨rfl, fun _ => rfl, fun h => absurd hs h⟩, .full hn hc hh, fun _ => by
        simp [Node.unhashed, hf]⟩
    | none =>
      have hchild := fun i => ih i (ht.branch i)
      have hrlp := rlp_full ht hn (fun i hne => (hchild i hne).1) flags
      have hlive := fun i => live_cacheChild (hn i) (fun hi : i = 16 => hi ▸ ht.last)
        fun hne => (hchild i hne).2
      obtain ⟨hc', hsome⟩ := cached_nodeToHash rfl hrlp rfl hc
      simp only [hash, hf]
      exact ⟨stands_nodeToHash rfl hrlp rfl, .full (fun i => (hlive i).1) hc'
        fun _ i => (hlive i).2, hsome⟩

theorem rlp_collapse (h : Live db root n t) (ht : Sound t) (hn : n.asHash = none)
    (hb : branches t = true) : (collapse n).rlp = enc t := by
  cases h with
  | nil | value => cases hb
  | hash => cases hn
  | short hc => exact rlp_short (hash_live hc ht.child ht.wf.2.1.ne_nil).1 _ _
  | full hc => exact rlp_full ht hc (fun i hne => (hash_live (hc i) (ht.branch i) hne).1) _

end Enc

/-- A hash of 32 bytes to run the model with: the first bytes. -/
abbrev sampleHash : HashFns := ⟨fun b => (b ++ List.replicate 32 0).take 32, id⟩

end GethComments.Trie
