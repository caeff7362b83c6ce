import GethComments.Trie.Decode
import GethComments.Trie.Operations
import Mathlib.Data.List.AList

/-!
# The trie database

`trie/database.go`: the write layer between the tries and the disk. Nodes that are not written yet
are kept in memory with their reference counts, in a doubly linked list in the order of insertion.

* `node`, `blob`: what is read back, from memory or from disk;
* `insert`: a node is kept in memory, and counted as a parent of its children.

A `none` is a nil pointer that is dereferenced. Preimages, the cache of clean nodes and the
statistics are left out, and nothing is flushed to disk.
-/

namespace GethComments.Trie

open GethComments.Rlp Option

/-! ## Stored nodes -/

/-- A node without flags: `rawShortNode`, `rawFullNode`, and hashes and values. -/
abbrev RawNode := Node Bytes Unit

/-- `simplifyNode` -/
def simplifyNode : Collapsed → RawNode
  | .nil => .nil
  | .short key val _ => .short key (simplifyNode val) ()
  | .full ch _ => .full (fun i => simplifyNode (ch i)) ()
  | .hash h => .hash h
  | .value v => .value v

/-- `expandNode` -/
def expandNode (hash : Option Bytes) : RawNode → LiveNode
  | .nil => .nil
  | .short key val _ => .short (compactToHex key) (expandNode none val) ⟨hash, false⟩
  | .full ch _ => .full (fun i => expandNode none (ch i)) ⟨hash, false⟩
  | .hash h => .hash h
  | .value v => .value v

/-- `forGatherChildren`: the hashes in a node, except for the last child of a full node. -/
def gatherChildren : RawNode → List Bytes
  | .short _ val _ => gatherChildren val
  | .full ch _ => (List.range 16).flatMap fun i => gatherChildren (ch (nibble i))
  | .hash h => [h]
  | .nil | .value _ => []

/-- What is stored under a hash: a collapsed node, or a blob (`rawNode`). -/
inductive Stored where
  | node (n : RawNode)
  | blob (b : Bytes)

namespace Stored

def rlp : Stored → Bytes
  | node n => n.rlp
  | blob b => b

/-- `obj`: the expanded node. `mustDecodeNode` panics at a blob that is not a node. -/
def obj (hash : Bytes) : Stored → Except TrieError LiveNode
  | node .nil => .error .invalidNode
  | node n => .ok (expandNode (some hash) n)
  | blob b => (decodeNode (some hash) b).mapError fun _ => .decodePanic hash

def gathered : Stored → List Bytes
  | node n => gatherChildren n
  | blob _ => []

end Stored

structure CachedNode where
  node : Stored
  size : Nat
  /-- The number of live nodes that reference this one, an unsigned 32-bit number. -/
  parents : Nat
  /-- External children with the number of references to them; the map may be nil. -/
  children : Option (AList fun _ : Bytes => Nat)
  flushPrev : Bytes
  flushNext : Bytes

/-- `forChilds`: external children, then those inside of the node. -/
def CachedNode.childs (c : CachedNode) : List Bytes :=
  (c.children.elim [] AList.keys) ++ c.node.gathered

def CachedNode.adopt (c : CachedNode) : CachedNode := { c with parents := (c.parents + 1) % 2 ^ 32 }

theorem CachedNode.adopt_iterate (k : Nat) (c : CachedNode) :
    adopt^[k] c = { c with parents := (adopt^[k] c).parents } := by
  induction k with
  | zero => rfl
  | succ k ih =>
    rw [Function.iterate_succ_apply', ih]
    rfl

@[simp]
theorem CachedNode.adopt_iterate_node (k : Nat) (c : CachedNode) : (adopt^[k] c).node = c.node := by
  rw [adopt_iterate]

/-- The zero hash, under which the meta root is stored. -/
def zeroHash : Bytes := List.replicate 32 0

structure Database where
  diskdb : Bytes → Option Bytes
  dirties : AList fun _ : Bytes => CachedNode
  /-- The head and the tail of the flush list. -/
  oldest : Bytes
  newest : Bytes
  dirtiesSize : Int
  childrenSize : Int

namespace Database

/-- `NewDatabase`: only the meta root is in memory. -/
def new (diskdb : Bytes → Option Bytes) : Database where
  diskdb := diskdb
  dirties := AList.singleton zeroHash ⟨.node .nil, 0, 0, some ∅, zeroHash, zeroHash⟩
  oldest := zeroHash
  newest := zeroHash
  dirtiesSize := 0
  childrenSize := 0

def lookup (db : Database) (h : Bytes) : Option CachedNode := db.dirties.lookup h

/-- A node in memory, changed through its pointer. -/
def set (db : Database) (h : Bytes) (c : CachedNode) : Database :=
  { db with dirties := db.dirties.insert h c }

def setFlushNext (db : Database) (h next : Bytes) : Option Database := do
  let c ← db.lookup h
  some (db.set h { c with flushNext := next })

/-- `node`, of `Database`: from memory, or decoded from disk. -/
def node (db : Database) (hash : Bytes) : Except TrieError (Option LiveNode) :=
  match db.lookup hash with
  | some dirty => (dirty.node.obj hash).map some
  | none =>
    match db.diskdb hash with
    | none => .ok none
    | some enc => ((Stored.blob enc).obj hash).map some

/-- `Node`: the encoding of a node. -/
def blob (db : Database) (hash : Bytes) : Option Bytes :=
  if hash = zeroHash then none
  else
    match db.lookup hash with
    | some dirty => some dirty.node.rlp
    | none => db.diskdb hash

/-! ## Insertion -/

def addParent (db : Database) (child : Bytes) : Database :=
  match db.lookup child with
  | some c => db.set child c.adopt
  | none => db

def append (db : Database) (hash : Bytes) : Option Database :=
  if db.oldest = zeroHash then some { db with oldest := hash, newest := hash }
  else do
    let db ← db.setFlushNext db.newest hash
    some { db with newest := hash }

def insert (db : Database) (hash : Bytes) (size : Nat) (node : Stored) : Option Database :=
  if (db.lookup hash).isSome then some db
  else do
    let entry : CachedNode := ⟨node, size % 2 ^ 16, 0, none, db.newest, zeroHash⟩
    let db := (entry.childs.foldl addParent db).set hash entry
    let db ← db.append hash
    -- The sum is an unsigned 16-bit number.
    some { db with dirtiesSize := db.dirtiesSize + ((32 + entry.size) % 2 ^ 16 : Nat) }

/-! ## What insertion does -/

section Insert

variable (db : Database)

@[simp]
theorem lookup_set (h x : Bytes) (c : CachedNode) :
    (db.set h c).lookup x = if x = h then some c else db.lookup x := by
  by_cases hx : x = h
  · subst hx
    simp [set, lookup]
  · simp [set, lookup, hx, AList.lookup_insert_ne hx]

theorem addParent_eq (child : Bytes) :
    db.addParent child = { db with dirties := (db.addParent child).dirties } := by
  unfold addParent
  split <;> rfl

theorem lookup_addParent (child x : Bytes) : (db.addParent child).lookup x =
      (db.lookup x).map (CachedNode.adopt^[if child = x then 1 else 0]) := by
  unfold addParent
  cases hc : db.lookup child with
  | none =>
    by_cases hx : child = x
    · simp [← hx, hc]
    · simp [hx]
  | some c =>
    by_cases hx : child = x
    · simp [← hx, hc]
    · simp [hx, Ne.symm hx]

theorem foldl_addParent_eq (childs : List Bytes) :
    childs.foldl addParent db = { db with dirties := (childs.foldl addParent db).dirties } := by
  induction childs generalizing db with
  | nil => rfl
  | cons child childs ih =>
    rw [List.foldl_cons, ih, addParent_eq]

theorem lookup_foldl_addParent (childs : List Bytes) (x : Bytes) :
    (childs.foldl addParent db).lookup x =
      (db.lookup x).map (CachedNode.adopt^[childs.count x]) := by
  induction childs generalizing db with
  | nil => simp
  | cons child childs ih =>
    rw [List.foldl_cons, ih, lookup_addParent, map_map, ← Function.iterate_add,
      List.count_cons]
    simp only [beq_iff_eq]

structure Inserted (hash : Bytes) (size : Nat) (node : Stored) (db' : Database) : Prop where
  diskdb : db'.diskdb = db.diskdb
  newest : db'.newest = hash
  oldest : db'.oldest = if db.oldest = zeroHash then hash else db.oldest
  lookup_self : db'.lookup hash = some ⟨node, size % 2 ^ 16, 0, none, db.newest, zeroHash⟩
  lookup_ne : ∀ x, x ≠ hash → db'.lookup x = (db.lookup x).map fun c =>
    { CachedNode.adopt^[node.gathered.count x] c with
      flushNext := if db.oldest ≠ zeroHash ∧ x = db.newest then hash else c.flushNext }

variable {db} {hash : Bytes} {size : Nat} {node : Stored}

theorem insert_old (hold : db.lookup hash ≠ none) : db.insert hash size node = some db := by
  simp [insert, isSome_iff_ne_none, hold]

theorem append_eq (hash : Bytes) (hlast : db.oldest ≠ zeroHash → db.lookup db.newest ≠ none) :
    ∃ db', db.append hash = some db' ∧ db'.diskdb = db.diskdb ∧ db'.newest = hash ∧
      db'.oldest = (if db.oldest = zeroHash then hash else db.oldest) ∧
      ∀ x, db'.lookup x = (db.lookup x).map fun c =>
        { c with
          flushNext := if db.oldest ≠ zeroHash ∧ x = db.newest then hash else c.flushNext } := by
  by_cases ho : db.oldest = zeroHash
  · refine ⟨{ db with oldest := hash, newest := hash }, by simp [append, ho], rfl, rfl,
      by simp [ho], fun x => ?_⟩
    simp [ho, lookup]
  · obtain ⟨c, hc⟩ := ne_none_iff_exists'.mp (hlast ho)
    refine ⟨{ db.set db.newest { c with flushNext := hash } with newest := hash },
      by simp [append, ho, setFlushNext, hc], rfl, rfl, by simp [ho, set], fun x => ?_⟩
    refine (lookup_set db _ _ _).trans ?_
    by_cases hx : x = db.newest
    · simp [hx, hc, ho]
    · simp [hx]

theorem insert_new (size : Nat) (node : Stored) (hnew : db.lookup hash = none)
    (hlast : db.oldest ≠ zeroHash → db.lookup db.newest ≠ none) :
    ∃ db', db.insert hash size node = some db' ∧ db.Inserted hash size node db' := by
  set entry : CachedNode := ⟨node, size % 2 ^ 16, 0, none, db.newest, zeroHash⟩ with hentry
  set db1 := (node.gathered.foldl addParent db).set hash entry with hdb1
  obtain ⟨hdisk, hnewest, holdest⟩ :
      db1.diskdb = db.diskdb ∧ db1.newest = db.newest ∧ db1.oldest = db.oldest := by
    rw [hdb1, foldl_addParent_eq]
    exact ⟨rfl, rfl, rfl⟩
  have hself : db1.lookup hash = some entry := by simp [hdb1]
  have hne : ∀ x, x ≠ hash →
      db1.lookup x = (db.lookup x).map (CachedNode.adopt^[node.gathered.count x]) := by
    intro x hx
    simp [hdb1, hx, lookup_foldl_addParent]
  have hnewest_ne : db.oldest ≠ zeroHash → db.newest ≠ hash := by
    rintro ho rfl
    exact hlast ho hnew
  have hlast1 : db1.oldest ≠ zeroHash → db1.lookup db1.newest ≠ none := by
    rw [holdest, hnewest]
    intro ho
    rw [hne _ (hnewest_ne ho), ne_eq, map_eq_none_iff]
    exact hlast ho
  obtain ⟨db2, heq, hdisk2, hnewest2, holdest2, hlookup2⟩ := append_eq hash hlast1
  refine ⟨{ db2 with dirtiesSize := db2.dirtiesSize + ((32 + entry.size) % 2 ^ 16 : Nat) }, ?_,
    hdisk2.trans hdisk, hnewest2, by rw [holdest2, holdest], ?_, fun x hx => ?_⟩
  · simp only [insert, hnew, isSome_none, Bool.false_eq_true, if_false]
    exact congrArg (bind · _) heq
  · refine (hlookup2 hash).trans ?_
    have hlink : ¬ (db.oldest ≠ zeroHash ∧ hash = db.newest) := fun h => hnewest_ne h.1 h.2.symm
    rw [hself, holdest, hnewest, map_some, if_neg hlink]
  · refine (hlookup2 x).trans ?_
    rw [hne x hx, holdest, hnewest, map_map]
    congr 1
    funext c
    have hnext := congrArg CachedNode.flushNext (CachedNode.adopt_iterate (node.gathered.count x) c)
    simp only [Function.comp, hnext]

end Insert

end Database

end GethComments.Trie
