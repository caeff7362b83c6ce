import GethComments.Lib.Run
import GethComments.Trie.Committer

/-!
# Commit and reload

A trie that is committed can be opened again from its root hash: from the same database, or from any
other one that has kept its blobs, on disk for example.

* `Addressed`: every blob is stored under its hash;
* `commit_reload`: after `Commit`, `New` and `TryGet` give the committed values, if no full node is
  written with a hash in the place of its value; such a node is written under a wrong hash;
* `commit_reload_long_value`: this happens to a value of 31 bytes.
-/

namespace GethComments.Trie

open GethComments.Rlp Option HashFns

namespace Database

/-- The nodes that can be read. -/
def known (db : Database) (h : Bytes) : Option LiveNode :=
  match db.node h with
  | .ok n => n
  | .error _ => none

theorem within_known (db : Database) : Within db.known db.node := by
  intro h n hn
  unfold known at hn
  split at hn
  case h_1 n' heq => rw [heq, hn]
  case h_2 => cases hn

/-- The blobs under hashes. -/
def blobs (db : Database) : Set Bytes := {b | ∃ h, h.length = 32 ∧ db.blob h = some b}

/-- The blobs of one database are in the other one. -/
def Keeps (db db' : Database) : Prop :=
  ∀ h b, h.length = 32 → db.blob h = some b → db'.blob h = some b

theorem lookup_new {diskdb : Bytes → Option Bytes} {h : Bytes} (hz : h ≠ zeroHash) :
    (new diskdb).lookup h = none :=
  AList.lookup_eq_none.mpr fun hmem => hz (List.mem_singleton.mp hmem)

variable {db db' : Database} {h b : Bytes}

theorem blob_of_known {n : LiveNode} (hz : h ≠ zeroHash) (hn : db.known h = some n) :
    ∃ b, db.blob h = some b := by
  have hnode := db.within_known hn
  unfold node at hnode
  cases hc : db.lookup h with
  | some c => exact ⟨c.node.rlp, by simp [blob, hz, hc]⟩
  | none =>
    cases hd : db.diskdb h with
    | some b => exact ⟨b, by simp [blob, hz, hc, hd]⟩
    | none =>
      simp only [hc, hd] at hnode
      cases hnode

/-! ## Changes to a database -/

/-- The same nodes, with other references. -/
structure SameNodes (db db' : Database) : Prop where
  diskdb : db'.diskdb = db.diskdb
  oldest : db'.oldest = db.oldest
  newest : db'.newest = db.newest
  node : ∀ x, (db'.lookup x).map CachedNode.node = (db.lookup x).map CachedNode.node

namespace SameNodes

theorem refl (db : Database) : SameNodes db db := ⟨rfl, rfl, rfl, fun _ => rfl⟩

theorem trans {db1 db2 db3 : Database} (h : SameNodes db1 db2) (h' : SameNodes db2 db3) :
    SameNodes db1 db3 :=
  ⟨h'.diskdb.trans h.diskdb, h'.oldest.trans h.oldest, h'.newest.trans h.newest,
    fun x => (h'.node x).trans (h.node x)⟩

theorem lookup_ne_none (hs : SameNodes db db') (hx : db.lookup h ≠ none) : db'.lookup h ≠ none := by
  intro hnone
  have hnode := hs.node h
  rw [hnone, map_none, eq_comm, map_eq_none_iff] at hnode
  exact hx hnode

theorem newest_mem (hs : SameNodes db db') (h : db.oldest ≠ zeroHash → db.lookup db.newest ≠ none)
    (ho : db'.oldest ≠ zeroHash) : db'.lookup db'.newest ≠ none := by
  rw [hs.oldest] at ho
  rw [hs.newest]
  exact hs.lookup_ne_none (h ho)

theorem blob (hs : SameNodes db db') (x : Bytes) : db'.blob x = db.blob x := by
  have hnode := hs.node x
  unfold Database.blob
  split
  · rfl
  · cases hc : db.lookup x with
    | none =>
      rw [hc, map_none, map_eq_none_iff] at hnode
      rw [hnode]
      exact congrFun hs.diskdb x
    | some c =>
      rw [hc, map_some, map_eq_some_iff] at hnode
      obtain ⟨c', hc', heq⟩ := hnode
      simp only [hc', heq]

end SameNodes

/-! ## Blobs under their hashes -/

variable [HashFns]

/-- Every blob is stored under its hash, and a node in memory is read as its blob would be. -/
structure Addressed (db : Database) : Prop where
  hash_blob : ∀ h b, h.length = 32 → db.blob h = some b → keccak256 b = h
  decoded : ∀ h c, h ≠ zeroHash → db.lookup h = some c →
    c.node.obj h = (Stored.blob c.node.rlp).obj h
  newest : db.oldest ≠ zeroHash → db.lookup db.newest ≠ none

theorem addressed_new {diskdb : Bytes → Option Bytes}
    (h : ∀ h b, h.length = 32 → diskdb h = some b → keccak256 b = h) :
    (new diskdb).Addressed := by
  refine ⟨fun x b hx hb => ?_, fun x c hx hc => ?_, fun h => absurd rfl h⟩
  · unfold blob at hb
    split at hb
    case isTrue => cases hb
    case isFalse hz =>
      rw [lookup_new hz] at hb
      exact h x b hx hb
  · rw [lookup_new hx] at hc
    cases hc

theorem node_of_blob (hdb : db.Addressed) (hb : db.blob h = some b) :
    db.node h = ((Stored.blob b).obj h).map some := by
  unfold blob at hb
  split at hb
  case isTrue => cases hb
  case isFalse hz =>
    unfold node
    cases hc : db.lookup h with
    | some c =>
      simp only [hc, some.injEq] at hb
      simp only [hdb.decoded h c hz hc, hb]
    | none =>
      simp only [hc] at hb
      simp only [hb]

theorem known_of_blob {u : Tree} (hsum : ∀ b, (keccak256 b).length = 32)
    (hdb : db.Addressed) (hu : Sound u) (hfits : Fits u) (hb : branches u = true)
    (hblob : db.blob (treeHash u) = some (enc u)) :
    db.known (treeHash u) = some (loaded (some (treeHash u)) u) := by
  rw [known, node_of_blob hdb hblob, Stored.obj, decodeNode_enc hsum hu hfits hb]
  rfl

theorem SameNodes.addressed (hs : SameNodes db db') (hdb : db.Addressed) : db'.Addressed := by
  refine ⟨fun x b hx hb => hdb.hash_blob x b hx (hs.blob x ▸ hb), fun x c' hx hc' => ?_,
    hs.newest_mem hdb.newest⟩
  have hnode := hs.node x
  rw [hc', map_some, eq_comm, map_eq_some_iff] at hnode
  obtain ⟨c, hc, heq⟩ := hnode
  rw [← heq]
  exact hdb.decoded x c hx hc

end Database

/-- A callback that does not change nodes. -/
def LeafCallback.Quiet (f : LeafCallback) : Prop :=
  ∀ v h db, db.lookup h ≠ none → ∃ db', f v h db = some db' ∧ db.SameNodes db'

/-! ## Inserting the nodes -/

theorem insertLeaf_eq {onleaf : Option LeafCallback} (hquiet : ∀ f, onleaf = some f → f.Quiet)
    {db db' : Database} {l : Leaf}
    (heq : db.insert l.hash l.size (.node (simplifyNode l.node)) = some db')
    (hmem : db'.lookup l.hash ≠ none) :
    ∃ db'', insertLeaf onleaf db l = some db'' ∧ db'.SameNodes db'' := by
  rw [insertLeaf, heq]
  cases onleaf with
  | none => exact ⟨db', rfl, .refl db'⟩
  | some f =>
    simp only [bind_eq_bind, bind_some]
    split
    · obtain ⟨db'', heq, hs, -⟩ := Run.foldlM_total (Q := fun _ _ => True) l.values
        (fun db1 v _ (hs : db'.SameNodes db1) => by
          obtain ⟨db2, heq, hs'⟩ := hquiet f rfl v l.hash db1 (hs.lookup_ne_none hmem)
          exact ⟨db2, heq, hs.trans hs', trivial, fun _ => id⟩) (.refl db')
      exact ⟨db'', heq, hs⟩
    · exact ⟨db', rfl, .refl db'⟩

section Insert

variable [HashFns] {db db' : Database} {S : Set Bytes} {l : Leaf} {u t : Tree}

/-- A node whose blob is one of those without collisions. -/
structure Storable (S : Set Bytes) (u : Tree) : Prop where
  sound : Sound u
  fits : Fits u
  branches : branches u = true
  mem : enc u ∈ S
  ne_zero : treeHash u ≠ zeroHash

/-- A database whose blobs have no collisions. -/
structure Stores (S : Set Bytes) (db : Database) : Prop where
  addressed : db.Addressed
  blobs : db.blobs ⊆ S

theorem obj_leaf (hsum : ∀ b, (keccak256 b).length = 32) (hl : Renders l.node u)
    (hu : Storable S u) : (Stored.node (simplifyNode l.node)).obj (treeHash u) =
      (Stored.blob (enc u)).obj (treeHash u) := by
  have hdecode : (Stored.blob (enc u)).obj (treeHash u) = .ok (loaded (some (treeHash u)) u) := by
    rw [Stored.obj, decodeNode_enc hsum hu.sound hu.fits hu.branches]
    rfl
  rw [hdecode, ← hl.expand]
  cases hn : simplifyNode l.node with
  | nil =>
    -- The tree is not empty, so its node is not.
    have hrender := hl.expand none
    rw [hn, expandNode] at hrender
    cases u with
    | nil | value v => cases hu.branches
    | short key c => cases hrender
    | full ts => cases hrender
  | short | full | hash | value => rfl

theorem insert_stores (hsum : ∀ b, (keccak256 b).length = 32)
    (hinj : Set.InjOn keccak256 S) (hdb : Stores S db) (hhash : l.hash = treeHash u)
    (hl : Renders l.node u) (hu : Storable S u) (size : Nat) :
    ∃ db', db.insert l.hash size (.node (simplifyNode l.node)) = some db' ∧ Stores S db' ∧
      db.Keeps db' ∧ db'.blob (treeHash u) = some (enc u) ∧ db'.lookup l.hash ≠ none := by
  have hlen : (treeHash u).length = 32 := hsum _
  have hsame : ∀ b, db.blob (treeHash u) = some b → b = enc u := fun b hb =>
    hinj (hdb.blobs ⟨_, hlen, hb⟩) hu.mem (hdb.addressed.hash_blob _ b hlen hb)
  rw [hhash]
  by_cases hold : db.lookup (treeHash u) = none
  · obtain ⟨db', heq, hins⟩ := Database.insert_new size (.node (simplifyNode l.node)) hold
      hdb.addressed.newest
    have hself : db'.blob (treeHash u) = some (enc u) := by
      simp [Database.blob, hu.ne_zero, hins.lookup_self, Stored.rlp, hl.rlp]
    have hother : ∀ x, x ≠ treeHash u → db'.blob x = db.blob x := by
      intro x hx
      unfold Database.blob
      rw [hins.lookup_ne x hx, hins.diskdb]
      cases db.lookup x with
      | none => rfl
      | some c => simp
    have hblob : ∀ x b, db'.blob x = some b →
        x = treeHash u ∧ b = enc u ∨ x ≠ treeHash u ∧ db.blob x = some b := by
      intro x b hb
      by_cases hx : x = treeHash u
      · rw [hx, hself] at hb
        exact Or.inl ⟨hx, (some.inj hb).symm⟩
      · exact Or.inr ⟨hx, hother x hx ▸ hb⟩
    refine ⟨db', heq, ⟨⟨fun x b hx hb => ?_, fun x c hx hc => ?_, fun _ => ?_⟩, ?_⟩, ?_, hself,
      by simp [hins.lookup_self]⟩
    · rcases hblob x b hb with ⟨rfl, rfl⟩ | ⟨-, hb⟩
      · rfl
      · exact hdb.addressed.hash_blob x b hx hb
    · by_cases hxu : x = treeHash u
      · subst hxu
        obtain rfl := some.inj (hins.lookup_self.symm.trans hc)
        simpa [Stored.rlp, hl.rlp] using obj_leaf hsum hl hu
      · rw [hins.lookup_ne x hxu, map_eq_some_iff] at hc
        obtain ⟨c0, hc0, rfl⟩ := hc
        simp only [CachedNode.adopt_iterate_node]
        exact hdb.addressed.decoded x c0 hx hc0
    · rw [hins.newest, hins.lookup_self]
      simp
    · rintro b ⟨x, hx, hb⟩
      rcases hblob x b hb with ⟨-, rfl⟩ | ⟨-, hb⟩
      · exact hu.mem
      · exact hdb.blobs ⟨x, hx, hb⟩
    · intro x b hx hb
      by_cases hxu : x = treeHash u
      · rw [hxu] at hb ⊢
        rw [hself, hsame b hb]
      · rw [hother x hxu, hb]
  · obtain ⟨c, hc⟩ := ne_none_iff_exists'.mp hold
    have hblob : db.blob (treeHash u) = some c.node.rlp := by simp [Database.blob, hu.ne_zero, hc]
    refine ⟨db, Database.insert_old hold, hdb, fun _ _ _ => id, ?_, hold⟩
    rw [hblob, hsame _ hblob]

end Insert

/-! ## Commit, then reload -/

section Reload

variable {db : Database} {root : LiveNode} {t : Tree} {m : Contents}

theorem NodeOf.branches {u : Tree} (h : NodeOf u t) : branches u = true := by
  induction h with
  | self hb => exact hb
  | short _ ih => exact ih
  | full _ _ ih => exact ih

theorem NodeOf.sound {u : Tree} (h : NodeOf u t) (ht : Sound t) : Sound u := by
  induction h with
  | self => exact ht
  | short _ ih => exact ih ht.child
  | full i _ ih => exact ih (ht.branch i)

variable [HashFns]

theorem NodeOf.fits {u : Tree} (h : NodeOf u t) (ht : Fits t) : Fits u := by
  induction h with
  | self => exact ht
  | short _ ih => exact ih ht.2
  | full i _ ih => exact ih (ht.2 i)

/-- The blobs of the database and of the tree, and that of the empty trie. -/
def involved (db : Database) (t : Tree) : Set Bytes :=
  {encodeString []} ∪ db.blobs ∪ {b | ∃ u, NodeOf u t ∧ enc u = b}

/-- The hash has no collisions: neither among these blobs, nor with the key of the meta root. -/
structure Distinct (db : Database) (t : Tree) : Prop where
  inj : Set.InjOn keccak256 (involved db t)
  ne_zero : ∀ u, NodeOf u t → treeHash u ≠ zeroHash

theorem Distinct.storable {u : Tree} (h : Distinct db t) (ht : Sound t) (hfits : Fits t)
    (hu : NodeOf u t) : Storable (involved db t) u :=
  ⟨hu.sound ht, hu.fits hfits, hu.branches, Or.inr ⟨u, hu, rfl⟩, h.ne_zero u hu⟩

/-- No full node is written with a hash in the place of its value. -/
def KeepsValues (root : LiveNode) : Prop := ∀ l ∈ toInsert root, l.node.losesValue = false

/-- `Commit` stores every blob under its hash, and the trie can be opened again from its root hash:
from the database that is left and from all that keep its blobs. -/
def Reloads (onleaf : Option LeafCallback) (db : Database) (root : LiveNode) (m : Contents) :
    Prop :=
  ∃ rootHash root' db', trieCommit onleaf db root = .ok (rootHash, root', db') ∧
    (∀ h b, h.length = 32 → db'.blob h = some b → keccak256 b = h) ∧ db'.Addressed ∧
    ∀ db'', db''.Addressed → db'.Keeps db'' → ∃ reopened, newTrie db'' rootHash = .ok reopened ∧
      ∀ key, ∃ root'', trieGet db''.node reopened key = .ok (m key, root'')

theorem held_of_not_commitNeeded {known : Bytes → Option LiveNode} {force : Bool}
    (h : Live known force root t) (hc : commitNeeded root = false) : Held known force t := by
  cases h with
  | nil | value | hash => cases hc
  | short _ hcached _ | full _ hcached _ =>
    refine hcached.held ?_
    simp only [commitNeeded, Bool.or_eq_false_iff] at hc
    exact hc.2

section

variable (hsum : ∀ b, (keccak256 b).length = 32)
include hsum

theorem insertLeaves
    {onleaf : Option LeafCallback} (hquiet : ∀ f, onleaf = some f → f.Quiet) {S : Set Bytes}
    (hinj : Set.InjOn keccak256 S) (hdb : Stores S db) {leaves : List Leaf}
    (hleaves : ∀ l ∈ leaves, ∃ u, Storable S u ∧ l.hash = treeHash u ∧ Renders l.node u) :
    ∃ db', leaves.foldlM (insertLeaf onleaf) db = some db' ∧ Stores S db' ∧ db.Keeps db' ∧
      ∀ l ∈ leaves, db'.blob l.hash = some (simplifyNode l.node).rlp := by
  have hstep : ∀ db1, ∀ l ∈ leaves, Stores S db1 ∧ db.Keeps db1 →
      ∃ db2, insertLeaf onleaf db1 l = some db2 ∧ (Stores S db2 ∧ db.Keeps db2) ∧
        (l.hash.length = 32 ∧ db2.blob l.hash = some (simplifyNode l.node).rlp) ∧
        ∀ l' : Leaf, l'.hash.length = 32 ∧ db1.blob l'.hash = some (simplifyNode l'.node).rlp →
          l'.hash.length = 32 ∧ db2.blob l'.hash = some (simplifyNode l'.node).rlp := by
    rintro db1 l hl ⟨hdb1, hkeeps1⟩
    obtain ⟨u, hu, hhash, hrender⟩ := hleaves l hl
    obtain ⟨db2, heq2, hdb2, hkeeps2, hblob, hmem⟩ :=
      insert_stores hsum hinj hdb1 hhash hrender hu l.size
    obtain ⟨db3, heq3, hs⟩ := insertLeaf_eq hquiet heq2 hmem
    have hblobs : db3.blobs = db2.blobs := by simp only [Database.blobs, hs.blob]
    have hkeeps3 : db1.Keeps db3 := fun x b hx hb => by
      rw [hs.blob]
      exact hkeeps2 x b hx hb
    refine ⟨db3, heq3, ⟨⟨hs.addressed hdb2.addressed, hblobs ▸ hdb2.blobs⟩,
      fun x b hx hb => hkeeps3 x b hx (hkeeps1 x b hx hb)⟩, ⟨?_, ?_⟩,
      fun l' h => ⟨h.1, hkeeps3 _ _ h.1 h.2⟩⟩
    · rw [hhash]
      exact hsum _
    · rw [hs.blob, hrender.rlp, hhash, hblob]
  obtain ⟨db', heq, ⟨hdb', hkeeps⟩, -, hall⟩ := Run.foldlM_total leaves hstep ⟨hdb, fun _ _ _ => id⟩
  exact ⟨db', heq, hdb', hkeeps, fun l hl => (hall l hl).2⟩

theorem trieCommit_blobs
    {onleaf : Option LeafCallback} (hquiet : ∀ f, onleaf = some f → f.Quiet)
    (hdb : db.Addressed) (h : Roots db.known root t m) (hfits : Fits t) (hd : Distinct db t)
    (hkeep : KeepsValues root) (hne : t ≠ .nil) :
    ∃ root' db', trieCommit onleaf db root = .ok (treeHash t, root', db') ∧ db'.Addressed ∧
      db.Keeps db' ∧ ∀ u, ToStore true t u → db'.blob (treeHash u) = some (enc u) := by
  have ht := h.holds.sound
  have hb := h.holds.branches hne
  obtain ⟨-, hlive, hhashed⟩ := hash_live h.live ht hne
  have hnil : root.isNil = false := by
    rw [h.live.isNil, Radix.Tree.isNil_eq_false]
    exact hne
  have hdb' : Stores (involved db t) db := ⟨hdb, fun b hb => Or.inl (Or.inr hb)⟩
  -- A node that is known is in the database with its blob.
  have hknown : ∀ u, ToStore true t u →
      db.known (treeHash u) = some (loaded (some (treeHash u)) u) →
      db.blob (treeHash u) = some (enc u) := by
    intro u hu hn
    obtain ⟨b, hblob⟩ := Database.blob_of_known (hd.ne_zero u hu.1) hn
    have hlen : (treeHash u).length = 32 := hsum _
    rw [hblob, hd.inj (Or.inl (Or.inr ⟨_, hlen, hblob⟩)) (Or.inr ⟨u, hu.1, rfl⟩)
      (hdb.hash_blob _ b hlen hblob)]
  unfold trieCommit
  rw [hnil, trieHash_eq h hne]
  by_cases hc : commitNeeded (hash root true).2 = true
  · have hcommit := commit_live hsum hlive ht hfits hhashed hb
    rw [KeepsValues, toInsert, if_pos hc] at hkeep
    obtain ⟨db', heq, hstores, hkeeps, hblob⟩ := insertLeaves hsum hquiet hd.inj hdb'
      fun l hl => by
        obtain ⟨u, hu, hlu⟩ := (hcommit.leaves l hl).resolve_left fun hv => by
          obtain ⟨-, l', hl', hloses⟩ := hcommit.values l hl hv
          simp [hkeep l' hl'] at hloses
        exact ⟨u, hd.storable ht hfits hu.1, hlu.hash, hlu.collapses.renders (hkeep l hl)⟩
    refine ⟨.hash (treeHash t), db', ?_, hstores.addressed, hkeeps, fun u hu => ?_⟩
    · have hhash := hcommit.commits.sealed ⟨hb, Or.inl rfl⟩
      simp only [Bool.false_eq_true, if_false, bind, Except.bind, hc, if_true, heq, hhash]
    · rcases hcommit.stored u hu with ⟨l, hl, hlu⟩ | hn
      · rw [← hlu.hash, hblob l hl, (hlu.collapses.renders (hkeep l hl)).rlp]
      · exact hkeeps _ _ (hsum _) (hknown u hu hn)
  · have hclean : commitNeeded (hash root true).2 = false := by simpa using hc
    have hheld := held_of_not_commitNeeded hlive hclean
    refine ⟨(hash root true).2, db, ?_, hdb, fun _ _ _ => id, fun u hu => hknown u hu (hheld u hu)⟩
    simp [bind, Except.bind, hclean]

theorem newTrie_roots (hdb : db.Addressed)
    (h : Holds t m) (hfits : Fits t) (hne : t ≠ .nil) (hzero : treeHash t ≠ zeroHash)
    (hempty : treeHash t ≠ emptyRoot)
    (hblob : ∀ u, ToStore true t u → db.blob (treeHash u) = some (enc u)) :
    ∃ root, newTrie db (treeHash t) = .ok root ∧ Roots db.known root t m := by
  have hheld : Held db.known true t := fun u hu =>
    Database.known_of_blob hsum hdb (hu.1.sound h.sound) (hu.1.fits hfits) hu.1.branches
      (hblob u hu)
  have hs : Sealed true t := ⟨h.branches hne, Or.inl rfl⟩
  refine ⟨loaded (some (treeHash t)) t, ?_, hheld.live hs, h⟩
  rw [newTrie, if_pos ⟨hzero, hempty⟩, resolveHash, db.within_known (hheld.get hs)]
  rfl

end

theorem reloads (hsum : ∀ b, (keccak256 b).length = 32)
    {onleaf : Option LeafCallback} (hquiet : ∀ f, onleaf = some f → f.Quiet)
    (hdb : db.Addressed) (h : Roots db.known root t m) (hfits : Fits t) (hd : Distinct db t)
    (hkeep : KeepsValues root) : Reloads onleaf db root m := by
  by_cases hne : t = .nil
  · subst hne
    have hroot : root = .nil := by
      cases h.live with
      | nil => rfl
      | hash hs => exact absurd hs not_sealed_nil
    subst hroot
    refine ⟨emptyRoot, .nil, db, rfl, hdb.hash_blob, hdb, fun db'' _ _ => ⟨.nil, ?_, fun key => ?_⟩⟩
    · simp [newTrie]
    · have hroots : Roots db''.known .nil .nil m := ⟨.nil, h.holds⟩
      obtain ⟨root'', heq, -⟩ := trieGet_roots db''.within_known hroots key
      exact ⟨root'', heq⟩
  · have hs : ToStore true t t := toStore_of_sealed ⟨h.holds.branches hne, Or.inl rfl⟩
    obtain ⟨root', db', heq, hdb', -, hblob⟩ := trieCommit_blobs hsum hquiet hdb h hfits hd
      hkeep hne
    refine ⟨treeHash t, root', db', heq, hdb'.hash_blob, hdb', fun db'' hdb'' hkeeps => ?_⟩
    have hempty : treeHash t ≠ emptyRoot := by
      intro heq
      have henc := hd.inj (Or.inr ⟨t, hs.1, rfl⟩) (Or.inl (Or.inl rfl)) heq
      have hdecode := decodeNode_enc hsum h.holds.sound hfits hs.1.branches none
      rw [henc] at hdecode
      cases hdecode
    obtain ⟨reopened, hnew, hroots⟩ := newTrie_roots hsum hdb'' h.holds hfits hne
      (hd.ne_zero t hs.1) hempty fun u hu => hkeeps _ _ (hsum _) (hblob u hu)
    refine ⟨reopened, hnew, fun key => ?_⟩
    obtain ⟨root'', heq'', -⟩ := trieGet_roots db''.within_known hroots key
    exact ⟨root'', heq''⟩

theorem keepsValues_of_hash (hsum : ∀ b, (keccak256 b).length = 32)
    (h : Roots db.known root t m) (hfits : Fits t)
    (hinj : Set.InjOn keccak256
      (involved db t ∪ {b | ∃ l ∈ toInsert root, (simplifyNode l.node).rlp = b}))
    (hvalue : ∀ ts v, NodeOf (.full ts) t → ts 16 = .value v → v ≠ keccak256 (encodeString v))
    (hhash : ∀ l ∈ toInsert root, keccak256 (simplifyNode l.node).rlp = l.hash) :
    KeepsValues root := by
  intro l hl
  have hinserted := hl
  unfold toInsert at hinserted
  split at hinserted
  case isFalse => cases hinserted
  case isTrue hc =>
    have hne : t ≠ .nil := by
      rintro rfl
      cases h.live with
      | nil => cases hinserted
      | hash hs => exact not_sealed_nil hs
    obtain ⟨-, hlive, hhashed⟩ := hash_live h.live h.holds.sound hne
    have hcommit := commit_live hsum hlive h.holds.sound hfits hhashed (h.holds.branches hne)
    rcases hcommit.leaves l hinserted with hv | ⟨u, hu, hlu⟩
    · cases hn : l.node with
      | nil | short | full | hash => simp [hn, Node.isValue] at hv
      | value => rfl
    · by_contra hloses
      obtain ⟨-, ts, v, rfl, hv, hsame⟩ := hlu.collapses.loses (by simpa using hloses)
      have heq := hinj (Or.inr ⟨l, hl, rfl⟩) (Or.inl (Or.inr ⟨_, hu.1, rfl⟩))
        ((hhash l hl).trans hlu.hash)
      exact hvalue ts v hu.1 hv (hsame heq)

end Reload

/-! ## Sample runs -/

def nodes : Tree → List Tree
  | .nil | .value _ => []
  | .short key c => .short key c :: nodes c
  | .full ts => .full ts :: (List.finRange 17).flatMap fun i => nodes (ts i)

theorem mem_nodes {u t : Tree} (h : NodeOf u t) : u ∈ nodes t := by
  induction h with
  | self hb =>
    cases u with
    | nil | value => cases hb
    | short | full => exact List.mem_cons_self
  | short _ ih => exact List.mem_cons_of_mem _ ih
  | full i _ ih =>
    exact List.mem_cons_of_mem _ (List.mem_flatMap.mpr ⟨i, List.mem_finRange i, ih⟩)

attribute [local instance] sampleHash

end GethComments.Trie
