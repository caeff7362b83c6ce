import GethComments.Trie.Database
import GethComments.Trie.History

/-!
# Committing a trie

`trie/committer.go` and `Commit` of `trie/trie.go`: the dirty nodes of a trie are collapsed and
inserted into the database. The nodes to insert do not depend on the database, so they are a list.

* `commit_live`: the inserted nodes are those of the tree, except that a large value in a full node
  is replaced by its hash; all others are in the database already.
-/

namespace GethComments.Trie

open GethComments.Rlp

/-! ## The committer -/

/-- A node to insert, with the size for the statistics and whether it may hold values. -/
structure Leaf where
  size : Nat
  hash : Bytes
  node : Collapsed
  vnodes : Bool

/-- `estimateSize` -/
def estimateSize : Collapsed → Nat
  | .short key val _ => 3 + key.length + estimateSize val
  | .full ch _ => 3 + ((List.range 16).map fun i =>
      if (ch (nibble i)).isNil then 1 else estimateSize (ch (nibble i))).sum
  | .value v => 1 + v.length
  | .hash h => 1 + h.length
  | .nil => 0

def Node.isValue {κ φ : Type} : Node κ φ → Bool
  | value _ => true
  | nil | short _ _ _ | full _ _ | hash _ => false

def Node.isHash {κ φ : Type} : Node κ φ → Bool
  | hash _ => true
  | nil | short _ _ _ | full _ _ | value _ => false

/-- A full node with a hash in the place of its value. -/
def Node.losesValue {κ φ : Type} : Node κ φ → Bool
  | full ch _ => (ch 16).isHash
  | nil | short _ _ _ | hash _ | value _ => false

section Commit

variable [HashFns]

/-- `store`: a node with a hash is inserted, and so is a large value; other nodes are stored in
their parents. -/
def store (n : Collapsed) (hash : Option Bytes) (force vnodes : Bool) : Collapsed × List Leaf :=
  match hash with
  | some h => (.hash h, [⟨estimateSize n, h, n, vnodes⟩])
  | none =>
    match n with
    | .value v =>
      let enc := encodeString v
      if enc.length < 32 ∧ force = false then (n, [])
      else
        let h := HashFns.keccak256 enc
        (.hash h, [⟨enc.length, h, n, vnodes⟩])
    | _ => (n, [])

/-- `commit`: the node as a part of its parent, and the nodes to insert. -/
def commit : LiveNode → Bool → Collapsed × List Leaf
  | .short key val flags, force =>
    match flags.hash, flags.dirty with
    | some h, false => (.hash h, [])
    | hash, _ =>
      let (childV, leaves) := match val with
        | .value v => (.value v, [])
        | val => commit val false
      let (n, stored) := store (.short (hexToCompact key) childV flags) hash force true
      (n, leaves ++ stored)
  | .full ch flags, force =>
    match flags.hash, flags.dirty with
    | some h, false => (.hash h, [])
    | hash, _ =>
      -- `commitChildren`: all seventeen children.
      let child := fun i => if (ch i).isNil then (.nil, []) else commit (ch i) false
      let hasVnodes := (List.finRange 17).any fun i => (child i).1.isValue
      let (n, stored) := store (.full (fun i => (child i).1) flags) hash force hasVnodes
      (n, ((List.finRange 17).flatMap fun i => (child i).2) ++ stored)
  | .value v, force => store (.value v) none force false
  | .hash h, _ => (.hash h, [])
  | .nil, _ => (.nil, [])

end Commit

/-- `LeafCallback`; the error it returns is ignored. -/
abbrev LeafCallback := Bytes → Bytes → Database → Option Database

/-- The values of a node that are reported. -/
def Leaf.values (l : Leaf) : List Bytes :=
  match l.node with
  | .short _ (.value v) _ => [v]
  | .full ch _ => (List.range 16).filterMap fun i =>
      match ch (nibble i) with
      | .value v => some v
      | _ => none
  | _ => []

/-- The round of `commitLoop` for one node, or the insertion in `store` without a callback. -/
def insertLeaf (onleaf : Option LeafCallback) (db : Database) (l : Leaf) : Option Database := do
  let db ← db.insert l.hash l.size (.node (simplifyNode l.node))
  match onleaf with
  | none => some db
  | some f => if l.vnodes then l.values.foldlM (fun db v => f v l.hash db) db else some db

/-- `commitNeeded` -/
def commitNeeded : LiveNode → Bool
  | .short _ _ flags | .full _ flags => flags.hash.isNone || flags.dirty
  | .nil | .hash _ | .value _ => true

/-- `Commit`: the root hash, the root that is left, and the database. -/
def trieCommit [HashFns] (onleaf : Option LeafCallback) (db : Database) (root : LiveNode) :
    Except TrieError (Bytes × LiveNode × Database) :=
  if root.isNil then .ok (emptyRoot, root, db)
  else do
    let (rootHash, root) ← trieHash root
    if commitNeeded root then
      let (h, leaves) := commit root true
      match leaves.foldlM (insertLeaf onleaf) db with
      | none => .error .nilPointer
      | some db =>
        match h with
        | .hash newRoot => .ok (rootHash, .hash newRoot, db)
        | _ => .error .invalidNode
    else .ok (rootHash, root, db)

/-- The nodes that `Commit` inserts. -/
def toInsert [HashFns] (root : LiveNode) : List Leaf :=
  if commitNeeded (hash root true).2 then (commit (hash root true).2 true).2 else []

/-- `New` -/
def newTrie [HashFns] (db : Database) (root : Bytes) : Except TrieError LiveNode :=
  if root ≠ zeroHash ∧ root ≠ emptyRoot then resolveHash db.node root [] else .ok .nil

/-! ## What is stored -/

section Stored

variable [HashFns] {known : Bytes → Option LiveNode} {root : Bool} {n : LiveNode} {t : Tree}

/-- The node is stored with the encoding of the tree, and it is expanded to the tree's node. -/
structure Renders (m : Collapsed) (t : Tree) : Prop where
  rlp : (simplifyNode m).rlp = enc t
  expand : ∀ h, expandNode h (simplifyNode m) = loaded h t

/-- The committed form of a node: its hash, or a node that is stored in its parent. -/
structure Commits (root : Bool) (m : Collapsed) (t : Tree) : Prop where
  isNil : m.isNil = false
  sealed : Sealed root t → m = .hash (treeHash t)
  renders : ¬ Sealed root t → Renders m t

/-- The node is the one of the tree. If its value is replaced by a hash, the encoding changes. -/
structure Collapses (m : Collapsed) (t : Tree) : Prop where
  renders : m.losesValue = false → Renders m t
  loses : m.losesValue = true → Sealed false t ∧ ∃ ts v, t = .full ts ∧ ts 16 = .value v ∧
    ((simplifyNode m).rlp = enc t → v = HashFns.keccak256 (encodeString v))

structure LeafOf (l : Leaf) (u : Tree) : Prop where
  hash : l.hash = treeHash u
  collapses : Collapses l.node u

/-- What committing a node gives: all nodes to store are inserted, or are in the database. A value
is inserted on its own only if a full node loses it. -/
structure Committed (known : Bytes → Option LiveNode) (root : Bool) (t : Tree)
    (p : Collapsed × List Leaf) : Prop where
  commits : Commits root p.1 t
  leaves : ∀ l ∈ p.2, l.node.isValue = true ∨ ∃ u, ToStore root t u ∧ LeafOf l u
  stored : ∀ u, ToStore root t u → (∃ l ∈ p.2, LeafOf l u) ∨
    known (treeHash u) = some (loaded (some (treeHash u)) u)
  values : ∀ l ∈ p.2, l.node.isValue = true → Sealed root t ∧ ∃ l' ∈ p.2, l'.node.losesValue = true

omit [HashFns] in
theorem isNil_simplifyNode (m : Collapsed) : (simplifyNode m).isNil = m.isNil := by
  cases m <;> rfl

variable {m : Collapsed} {key : Hex} {c : Tree} {ts : Nibble → Tree} {flags : NodeFlag}

theorem Commits.link (h : Commits false m t) : (simplifyNode m).rlp = link t (enc t) := by
  by_cases hs : Sealed false t
  · rw [link_of_sealed hs, h.sealed hs, simplifyNode, Node.rlp]
  · rw [link_of_not_sealed hs, (h.renders hs).rlp]

theorem Commits.expand (h : Commits false m t) : expandNode none (simplifyNode m) =
      if Sealed false t then .hash (treeHash t) else loaded none t := by
  split
  case isTrue hs => rw [h.sealed hs, simplifyNode, expandNode]
  case isFalse hs => exact (h.renders hs).expand none

theorem commits_value (v : Bytes) : Commits root (.value v) (.value v) :=
  ⟨rfl, fun hs => absurd hs not_sealed_value, fun _ => ⟨rfl, fun _ => rfl⟩⟩

theorem renders_short (ht : Sound (.short key c)) (h : Commits false m c) (flags : NodeFlag) :
    Renders (.short (hexToCompact key) m flags) (.short key c) := by
  constructor
  · rw [simplifyNode, Node.rlp, enc, h.link]
  · intro hash
    rw [simplifyNode, expandNode, loaded, ht.compact_key, h.expand]

theorem Node.rlp_child (hnil : t = .nil → m = .nil) (h : t ≠ .nil → Commits false m t) :
    (if (simplifyNode m).isNil then encodeString [] else (simplifyNode m).rlp) =
      link t (enc t) := by
  by_cases ht : t = .nil
  · simp [ht, hnil ht, simplifyNode, Node.isNil, Trie.link, branches, enc]
  · rw [isNil_simplifyNode, (h ht).isNil, (h ht).link]
    rfl

theorem renders_full {ch : Fin 17 → Collapsed} (hnil : ∀ i, ts i = .nil → ch i = .nil)
    (h : ∀ i, ts i ≠ .nil → Commits false (ch i) (ts i)) (flags : NodeFlag) :
    Renders (.full ch flags) (.full ts) := by
  constructor
  · rw [simplifyNode, Node.rlp, enc]
    congr 2
    funext i
    exact Node.rlp_child (hnil i) (h i)
  · intro hash
    rw [simplifyNode, expandNode, loaded]
    congr 1
    funext i
    by_cases hi : ts i = .nil
    · simp [hi, hnil i hi, simplifyNode, expandNode, not_sealed_nil, loaded]
    · exact (h i hi).expand

omit [HashFns] in
theorem flatten_map_finRange {k : Nat} (f : Fin (k + 1) → Bytes) :
    ((List.finRange (k + 1)).map f).flatten =
      ((List.finRange k).map (f ∘ Fin.castSucc)).flatten ++ f (Fin.last k) := by
  simp [List.finRange_succ_last]

/-- If the value is replaced, the encoding changes. -/
theorem eq_of_replaced {ch : Fin 17 → Collapsed} {v h : Bytes} (hfits : Fits (.full ts))
    (hv : ts 16 = .value v) (hlast : ch 16 = .hash h)
    (hnil : ∀ i, i ≠ 16 → ts i = .nil → ch i = .nil)
    (hchild : ∀ i, i ≠ 16 → ts i ≠ .nil → Commits false (ch i) (ts i))
    (heq : (simplifyNode (.full ch flags)).rlp = enc (.full ts)) : v = h := by
  let item : Nibble → Bytes := fun i => link (ts i) (enc (ts i))
  let item' : Nibble → Bytes := fun i =>
    if (simplifyNode (ch i)).isNil then encodeString [] else (simplifyNode (ch i)).rlp
  have hinner : item' ∘ Fin.castSucc = item ∘ Fin.castSucc := funext fun i =>
    have hi : i.castSucc ≠ 16 := (Fin.castSucc_lt_last i).ne
    Node.rlp_child (hnil _ hi) (hchild _ hi)
  have hvalue : item 16 = encodeString v := by
    simp only [item, hv]
    rw [link_of_not_sealed not_sealed_value, enc]
  have hhash : item' 16 = encodeString h := by
    simp only [item', hlast, simplifyNode, Node.isNil, Node.rlp, Bool.false_eq_true, if_false]
  have henc : encodeList ((List.finRange 17).map item') =
      encodeList ((List.finRange 17).map item) := heq
  have hbound : (encodeList ((List.finRange 17).map item)).length < 2 ^ 63 := hfits.1
  have hlen := length_encodeList ((List.finRange 17).map item)
  have hlen' := length_encodeList ((List.finRange 17).map item')
  rw [henc] at hlen'
  have hflat := encodeList_inj (by unfold sizeBound; omega) (by unfold sizeBound; omega) henc
  rw [flatten_map_finRange, flatten_map_finRange item, hinner] at hflat
  have hsame : encodeString v = encodeString h :=
    hvalue.symm.trans ((List.append_cancel_left hflat).symm.trans hhash)
  have hitem := length_lt_encodeList (List.mem_map.mpr ⟨16, List.mem_finRange _, hvalue⟩)
  have happend : encodeString v ++ [] = encodeString h ++ [] := congrArg (· ++ []) hsame
  exact (encodeString_append_inj (by simp only [List.append_nil, sizeBound]; omega) happend).1

/-! ## Committing a live node -/

theorem ToStore.cases_short {u : Tree} (h : ToStore root (.short key c) u) :
    u = .short key c ∧ Sealed root (.short key c) ∨ ToStore false c u := by
  obtain ⟨hnode, hs | ⟨hroot, rfl⟩⟩ := h
  · cases hnode with
    | self hb => exact Or.inl ⟨rfl, hb, Or.inr (hs.2.resolve_left (by simp))⟩
    | short hc => exact Or.inr ⟨hc, Or.inl hs⟩
  · exact Or.inl ⟨rfl, rfl, Or.inl hroot⟩

theorem ToStore.cases_full {u : Tree} (h : ToStore root (.full ts) u) :
    u = .full ts ∧ Sealed root (.full ts) ∨ ∃ i, ToStore false (ts i) u := by
  obtain ⟨hnode, hs | ⟨hroot, rfl⟩⟩ := h
  · cases hnode with
    | self hb => exact Or.inl ⟨rfl, hb, Or.inr (hs.2.resolve_left (by simp))⟩
    | full i hc => exact Or.inr ⟨i, hc, Or.inl hs⟩
  · exact Or.inl ⟨rfl, rfl, Or.inl hroot⟩

theorem sealed_of_long (hb : branches t = true) {items : List Bytes}
    (henc : enc t = encodeList items)
    {e : Bytes} (hmem : e ∈ items) (hlen : 32 ≤ e.length) : Sealed root t := by
  have hlt := length_lt_encodeList hmem
  rw [← henc] at hlt
  exact ⟨hb, Or.inr (by omega)⟩

theorem sealed_of_item (hsum : ∀ b, (HashFns.keccak256 b).length = 32) (hb : branches t = true)
    (hs : Sealed false c) {items : List Bytes} (henc : enc t = encodeList items)
    (hmem : link c (enc c) ∈ items) : Sealed root t := by
  have hlen : (treeHash c).length = 32 := hsum _
  have hle := length_le_encodeString (treeHash c)
  refine sealed_of_long hb henc hmem ?_
  rw [link_of_sealed hs]
  omega

theorem sealed_of_value {v : Bytes} (hv : ts 16 = .value v) (hlen : 32 ≤ (encodeString v).length) :
    Sealed root (.full ts) := by
  refine sealed_of_long rfl rfl (List.mem_map.mpr ⟨16, List.mem_finRange _, rfl⟩) ?_
  rw [hv, link_of_not_sealed not_sealed_value]
  exact hlen

def shortChild : LiveNode → Collapsed × List Leaf
  | .value v => (.value v, [])
  | val => commit val false

def fullChild (child : LiveNode) : Collapsed × List Leaf :=
  if child.isNil then (.nil, []) else commit child false

theorem commit_short (h : flags.hash = none ∨ flags.dirty = true) :
    commit (.short key n flags) root =
      ((store (.short (hexToCompact key) (shortChild n).1 flags) flags.hash root true).1,
        (shortChild n).2 ++
          (store (.short (hexToCompact key) (shortChild n).1 flags) flags.hash root true).2) := by
  obtain ⟨hash, dirty⟩ := flags
  cases hash with
  | none => cases n <;> rfl
  | some x =>
    obtain rfl : dirty = true := h.resolve_left (by simp)
    cases n <;> rfl

theorem commit_full (root : Bool) (ch : Fin 17 → LiveNode)
    (h : flags.hash = none ∨ flags.dirty = true) :
    ∃ vnodes, commit (.full ch flags) root =
      ((store (.full (fun i => (fullChild (ch i)).1) flags) flags.hash root vnodes).1,
        ((List.finRange 17).flatMap fun i => (fullChild (ch i)).2) ++
          (store (.full (fun i => (fullChild (ch i)).1) flags) flags.hash root vnodes).2) := by
  refine ⟨(List.finRange 17).any fun i => (fullChild (ch i)).1.isValue, ?_⟩
  obtain ⟨hash, dirty⟩ := flags
  cases hash with
  | none => rfl
  | some x =>
    obtain rfl : dirty = true := h.resolve_left (by simp)
    rfl

theorem committed_value (v : Bytes) : Committed known false (.value v) (.value v, []) := by
  refine ⟨commits_value v, fun _ hl => (by cases hl), fun u hu => ?_, fun _ hl => by cases hl⟩
  cases hu.1 with
  | self hb => cases hb

theorem Committed.clean (hs : Sealed root t) (hheld : Held known root t) :
    Committed known root t (.hash (treeHash t), []) :=
  ⟨⟨rfl, fun _ => rfl, fun h => absurd hs h⟩, fun _ hl => (by cases hl),
    fun u hu => Or.inr (hheld u hu), fun _ hl => by cases hl⟩

theorem Committed.of_cached {flags : NodeFlag} (hc : Cached known root flags t)
    (hclean : ¬ (flags.hash = none ∨ flags.dirty = true)) :
    ∃ h, flags = ⟨some h, false⟩ ∧ Committed known root t (.hash h, []) := by
  obtain ⟨hash, dirty⟩ := flags
  obtain ⟨h, rfl⟩ := Option.ne_none_iff_exists'.mp fun hnone => hclean (Or.inl hnone)
  obtain rfl : dirty = false := by simpa using fun hd => hclean (Or.inr hd)
  obtain ⟨rfl, hs⟩ := hc.hash_eq h rfl
  exact ⟨_, rfl, .clean hs (hc.held rfl)⟩

theorem Committed.store (hm : Collapses m t) (hnil : m.isNil = false) (hval : m.isValue = false)
    {hash : Option Bytes} {vnodes : Bool}
    (hsome : ∀ h, hash = some h → h = treeHash t ∧ Sealed root t)
    (hnone : hash = none → ¬ Sealed root t) {leaves : List Leaf}
    (hleaves : ∀ l ∈ leaves, l.node.isValue = true ∨ ∃ u, ToStore root t u ∧ LeafOf l u)
    (hstored : ∀ u, ToStore root t u → u = t ∧ Sealed root t ∨ (∃ l ∈ leaves, LeafOf l u) ∨
      known (treeHash u) = some (loaded (some (treeHash u)) u))
    (hvalues : ∀ l ∈ leaves, l.node.isValue = true → m.losesValue = true ∨ Sealed root t ∧
      ∃ l' ∈ leaves, l'.node.losesValue = true) :
    Committed known root t
      ((Trie.store m hash root vnodes).1, leaves ++ (Trie.store m hash root vnodes).2) := by
  cases hash with
  | none =>
    have hs := hnone rfl
    have heq : Trie.store m none root vnodes = (m, []) := by
      cases m with
      | nil => cases hnil
      | value v => cases hval
      | short | full | hash => rfl
    rw [heq, List.append_nil]
    have hkeeps : m.losesValue = false := by
      by_contra h
      obtain ⟨⟨hb, hlen⟩, -⟩ := hm.loses (by simpa using h)
      exact hs ⟨hb, Or.inr (hlen.resolve_left (by simp))⟩
    refine ⟨⟨hnil, fun h => absurd h hs, fun _ => hm.renders hkeeps⟩, hleaves, fun u hu => ?_,
      fun l hl hv => ?_⟩
    · exact (hstored u hu).resolve_left fun h => hs h.2
    · exact (hvalues l hl hv).resolve_left (by simp [hkeeps])
  | some h =>
    obtain ⟨rfl, hs⟩ := hsome h rfl
    have hself : LeafOf ⟨estimateSize m, treeHash t, m, vnodes⟩ t := ⟨rfl, hm⟩
    have hlast : (⟨estimateSize m, treeHash t, m, vnodes⟩ : Leaf) ∈
        leaves ++ (Trie.store m (some (treeHash t)) root vnodes).2 :=
      List.mem_append_right _ (List.mem_singleton_self _)
    refine ⟨⟨rfl, fun _ => rfl, fun h => absurd hs h⟩, fun l hl => ?_, fun u hu => ?_,
      fun l hl hv => ⟨hs, ?_⟩⟩
    · rcases List.mem_append.mp hl with hl | hl
      · exact hleaves l hl
      · obtain rfl := List.mem_singleton.mp hl
        exact Or.inr ⟨t, toStore_of_sealed hs, hself⟩
    · rcases hstored u hu with ⟨rfl, -⟩ | ⟨l, hl, hlu⟩ | hknown
      · exact Or.inl ⟨_, hlast, hself⟩
      · exact Or.inl ⟨l, List.mem_append_left _ hl, hlu⟩
      · exact Or.inr hknown
    · rcases List.mem_append.mp hl with hl | hl
      · rcases hvalues l hl hv with hloses | ⟨-, l', hl', hloses⟩
        · exact ⟨_, hlast, hloses⟩
        · exact ⟨l', List.mem_append_left _ hl', hloses⟩
      · obtain rfl := List.mem_singleton.mp hl
        exact absurd hv (by simp [hval])

/-- The child of a full node is committed, or it is a large value and is inserted on its own. -/
def CommittedChild (known : Bytes → Option LiveNode) (ts : Nibble → Tree) (i : Nibble)
    (p : Collapsed × List Leaf) : Prop :=
  Committed known false (ts i) p ∧ (i = 16 → p.1.isHash = false) ∨
    ∃ v size, i = 16 ∧ ts i = .value v ∧ Sealed false (.full ts) ∧
      p = (.hash (HashFns.keccak256 (encodeString v)),
        [⟨size, HashFns.keccak256 (encodeString v), .value v, false⟩])

theorem CommittedChild.commits {p : Collapsed × List Leaf} {i : Nibble}
    (h : CommittedChild known ts i p) (hkept : i = 16 → p.1.isHash = false) :
    Commits false p.1 (ts i) := by
  rcases h with ⟨hcommit, -⟩ | ⟨v, size, hi, -, -, rfl⟩
  · exact hcommit.commits
  · exact absurd (hkept hi) (by simp [Node.isHash])

theorem collapses_full {child : Fin 17 → Collapsed × List Leaf} (hfits : Fits (.full ts))
    (hnil : ∀ i, ts i = .nil → child i = (.nil, []))
    (hchild : ∀ i, ts i ≠ .nil → CommittedChild known ts i (child i)) (flags : NodeFlag) :
    Collapses (.full (fun i => (child i).1) flags) (.full ts) := by
  refine ⟨fun hkeeps => ?_, fun hloses => ?_⟩
  · refine renders_full (fun i hi => by rw [hnil i hi]) (fun i hi => ?_) flags
    refine (hchild i hi).commits ?_
    rintro rfl
    exact hkeeps
  · have h16 : ts 16 ≠ .nil := fun h => by
      simp [Node.losesValue, hnil 16 h, Node.isHash] at hloses
    rcases hchild 16 h16 with ⟨-, hkeeps⟩ | ⟨v, size, -, hv, hs, heq⟩
    · exact absurd hloses (by simp [Node.losesValue, hkeeps])
    · refine ⟨hs, ts, v, rfl, hv, eq_of_replaced hfits hv (by rw [heq])
        (fun i _ hi => by rw [hnil i hi]) fun i hi16 hi => ?_⟩
      exact (hchild i hi).commits fun h => absurd h hi16

theorem fullChild_live {ch : Fin 17 → LiveNode} (hn : ∀ i, Live known false (ch i) (ts i))
    (ht : Sound (.full ts)) {i : Nibble} (hi : ts i ≠ .nil)
    (ih : branches (ts i) = true → Committed known false (ts i) (commit (ch i) false)) :
    CommittedChild known ts i (fullChild (ch i)) := by
  have hnn : (ch i).isNil = false := by rw [(hn i).isNil, Radix.Tree.isNil_eq_false]; exact hi
  by_cases hi16 : i = 16
  · subst hi16
    obtain ⟨v, hv⟩ := ht.last.resolve_left hi
    have hch : ch 16 = .value v := by
      have hlive := hn 16
      rw [hv] at hlive
      generalize ch 16 = c at hlive
      cases hlive with
      | value => rfl
      | hash hs => exact absurd hs not_sealed_value
    by_cases hlen : (encodeString v).length < 32
    · have heq : fullChild (ch 16) = (.value v, []) := by
        simp [fullChild, hch, commit, Trie.store, hlen, Node.isNil]
      rw [heq]
      exact Or.inl ⟨hv ▸ committed_value v, fun _ => rfl⟩
    · refine Or.inr ⟨v, (encodeString v).length, rfl, hv, sealed_of_value hv (by omega), ?_⟩
      simp [fullChild, hch, commit, Trie.store, hlen, Node.isNil]
  · rw [fullChild, hnn]
    exact Or.inl ⟨ih ((ht.inner hi16).resolve_left hi), fun h => absurd h hi16⟩

variable (hsum : ∀ b, (HashFns.keccak256 b).length = 32)
include hsum

theorem Hashed.short
    (h : Hashed root (.short key n flags) (.short key c))
    (hc : flags.hash ≠ none → Hashed false n c) : Hashed false n c := by
  intro hs
  have hsealed : Sealed root (.short key c) := sealed_of_item hsum rfl hs rfl (by simp)
  refine hc (fun hnone => ?_) hs
  simpa [Node.unhashed, hnone] using h hsealed

theorem Hashed.full {ch : Fin 17 → LiveNode}
    (h : Hashed root (.full ch flags) (.full ts))
    (hc : flags.hash ≠ none → ∀ i, Hashed false (ch i) (ts i)) (i : Nibble) :
    Hashed false (ch i) (ts i) := by
  intro hs
  have hsealed : Sealed root (.full ts) := by
    refine sealed_of_item hsum rfl hs rfl ?_
    exact List.mem_map.mpr ⟨i, List.mem_finRange i, rfl⟩
  refine hc (fun hnone => ?_) i hs
  simpa [Node.unhashed, hnone] using h hsealed

theorem commit_live (h : Live known root n t) (ht : Sound t) (hfits : Fits t)
    (hhashed : Hashed root n t) (hb : branches t = true) :
    Committed known root t (commit n root) := by
  induction h with
  | nil | value => cases hb
  | hash hs hheld => exact .clean hs hheld
  | @short root key n flags c hn hc hh ih =>
    have hchild : Committed known false c (shortChild n) := by
      cases hn with
      | nil => exact absurd rfl ht.wf.2.1.ne_nil
      | value => exact committed_value _
      | short | full => exact ih ht.child hfits.2 (hhashed.short hsum hh) rfl
      | hash hs hheld => exact .clean hs hheld
    by_cases hclean : flags.hash = none ∨ flags.dirty = true
    · rw [commit_short hclean]
      refine .store ⟨fun _ => renders_short ht hchild.commits flags, fun h => by cases h⟩ rfl rfl
        hc.hash_eq (fun hnone hs => ?_) (fun l hl => ?_) (fun u hu => ?_) fun l hl hv => Or.inr ?_
      · simpa [Node.unhashed, hnone] using hhashed hs
      · refine (hchild.leaves l hl).imp_right ?_
        rintro ⟨u, hu, hl⟩
        exact ⟨u, hu.short key, hl⟩
      · exact hu.cases_short.imp id (hchild.stored u)
      · obtain ⟨hs, hloses⟩ := hchild.values l hl hv
        exact ⟨sealed_of_item hsum rfl hs rfl (by simp), hloses⟩
    · obtain ⟨h, rfl, hcommit⟩ := Committed.of_cached hc hclean
      exact hcommit
  | @full root ch flags ts hn hc hh ih =>
    have hnil : ∀ i, ts i = .nil → fullChild (ch i) = (.nil, []) := by
      intro i hi
      rw [fullChild, (hn i).isNil, hi]
      rfl
    have hchild := fun i hi => fullChild_live hn ht (i := i) hi
      (ih i (ht.branch i) (hfits.2 i) (hhashed.full hsum hh i))
    by_cases hclean : flags.hash = none ∨ flags.dirty = true
    · obtain ⟨vnodes, heq⟩ := commit_full root ch hclean
      rw [heq]
      refine .store (collapses_full hfits hnil hchild flags) rfl rfl hc.hash_eq
        (fun hnone hs => ?_) (fun l hl => ?_) (fun u hu => ?_) fun l hl hv => ?_
      · simpa [Node.unhashed, hnone] using hhashed hs
      · obtain ⟨i, -, hl⟩ := List.mem_flatMap.mp hl
        have hi : ts i ≠ .nil := fun hi => by simp [hnil i hi] at hl
        rcases hchild i hi with ⟨hcommit, -⟩ | ⟨v, size, -, -, -, heq⟩
        · refine (hcommit.leaves l hl).imp_right ?_
          rintro ⟨u, hu, hl⟩
          exact ⟨u, hu.full i, hl⟩
        · rw [heq, List.mem_singleton] at hl
          exact Or.inl (hl ▸ rfl)
      · refine hu.cases_full.imp id ?_
        rintro ⟨i, hu⟩
        have hi : ts i ≠ .nil := by
          intro hi
          rw [hi] at hu
          cases hu.1 with
          | self hb => cases hb
        rcases hchild i hi with ⟨hcommit, -⟩ | ⟨v, size, -, hv, -⟩
        · refine (hcommit.stored u hu).imp ?_ id
          rintro ⟨l, hl, hlu⟩
          exact ⟨l, List.mem_flatMap.mpr ⟨i, List.mem_finRange i, hl⟩, hlu⟩
        · rw [hv] at hu
          cases hu.1 with
          | self hb => cases hb
      · obtain ⟨i, -, hl⟩ := List.mem_flatMap.mp hl
        have hi : ts i ≠ .nil := fun hi => by simp [hnil i hi] at hl
        rcases hchild i hi with ⟨hcommit, -⟩ | ⟨v, size, rfl, -, -, heq⟩
        · obtain ⟨hs, l', hl', hloses⟩ := hcommit.values l hl hv
          refine Or.inr ⟨sealed_of_item hsum rfl hs rfl ?_, l', ?_, hloses⟩
          · exact List.mem_map.mpr ⟨i, List.mem_finRange i, rfl⟩
          · exact List.mem_flatMap.mpr ⟨i, List.mem_finRange i, hl'⟩
        · exact Or.inl (by simp [Node.losesValue, heq, Node.isHash])
    · obtain ⟨h, rfl, hcommit⟩ := Committed.of_cached hc hclean
      exact hcommit

end Stored

/-! ## Sample tries -/

/-- A key that begins another one, whose value is too large to be stored in the parent. -/
def prefixKeys : List Call := [.update [1] [2], .update [1, 2] (List.replicate 33 3)]

def prefixTree : Tree :=
  (Radix.Tree.nil.insert (keybytesToHex [1]) [2]).insert (keybytesToHex [1, 2])
    (List.replicate 33 3)

theorem run_prefixKeys [HashFns] {known : Bytes → Option LiveNode}
    {db : Bytes → Except TrieError (Option LiveNode)} (hdb : Within known db) :
    ∃ root, run db .nil prefixKeys = .ok root ∧
      Roots known root prefixTree (written prefixKeys) := by
  obtain ⟨root, t, hrun, hroots⟩ := run_roots hdb prefixKeys ⟨.nil, .empty⟩
  have hholds : Holds prefixTree (written prefixKeys) :=
    (Holds.empty.insert [1] (by simp)).insert [1, 2] (by simp)
  obtain rfl : t = prefixTree := hroots.holds.unique hholds
  exact ⟨root, hrun, hroots⟩

/-- Two keys, one of them empty and with a value of 31 bytes. -/
def longValue : List Call := [.update [] (List.replicate 31 7), .update [16] [1]]

end GethComments.Trie
