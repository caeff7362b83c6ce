import GethComments.Trie.Operations

/-!
# The trie as a map

The exported operations of `trie/trie.go`, and whole histories of them. The state of a trie is its
root node.

* `Holds`: the tree with exactly the values of a map;
* `Holds.unique`: there is only one, whatever the history;
* `trie_is_map`: after any calls on an empty trie, `TryGet` gives the values last written, the nodes
  are in minimal form, and `Hash` depends on the values only.
-/

namespace GethComments.Trie

open GethComments.Rlp

section Operations

variable (db : Bytes → Except TrieError (Option LiveNode))

/-- Fuel for a key: the operations take at most two steps for each nibble. -/
def fuelFor (key : Hex) : Nat := 2 * key.length + 2

/-- `TryGet`, with the root that is left. -/
def trieGet (root : LiveNode) (key : Bytes) : Except TrieError (Option Bytes × LiveNode) := do
  let key := keybytesToHex key
  let (value, newroot, didResolve) ← tryGet db (fuelFor key) root [] key
  .ok (value, if didResolve then newroot else root)

/-- `TryDelete` -/
def trieDelete (root : LiveNode) (key : Bytes) : Except TrieError LiveNode := do
  let k := keybytesToHex key
  let (_, n) ← delete db (fuelFor k) root [] k
  .ok n

/-- `TryUpdate`: a value of length zero is a deletion. -/
def trieUpdate (root : LiveNode) (key value : Bytes) : Except TrieError LiveNode := do
  let k := keybytesToHex key
  if value.length ≠ 0 then
    let (_, n) ← insert db (fuelFor k) root [] k (.value value)
    .ok n
  else trieDelete db root key

variable [HashFns]

def emptyRoot : Bytes := HashFns.keccak256 (encodeString [])

def hashRoot (root : LiveNode) : Collapsed × LiveNode :=
  if root.isNil then (.hash emptyRoot, .nil) else hash root true

/-- `Hash`, with the root that is left. The hashed root must be a hash node. -/
def trieHash (root : LiveNode) : Except TrieError (Bytes × LiveNode) :=
  match (hashRoot root).1 with
  | .hash h => .ok (h, (hashRoot root).2)
  | .nil | .short _ _ _ | .full _ _ | .value _ => .error .invalidNode

inductive Call where
  | update (key value : Bytes)
  | delete (key : Bytes)
  | get (key : Bytes)
  | hash
  deriving DecidableEq, Repr

def Call.exec (root : LiveNode) : Call → Except TrieError LiveNode
  | update key value => trieUpdate db root key value
  | delete key => trieDelete db root key
  | get key => (trieGet db root key).map Prod.snd
  | hash => (trieHash root).map Prod.snd

/-- A history of calls; it stops at an error. -/
def run (root : LiveNode) (calls : List Call) : Except TrieError LiveNode :=
  calls.foldlM (Call.exec db) root

end Operations

/-! ## Maps -/

abbrev Contents := Bytes → Option Bytes

def Contents.empty : Contents := fun _ => none

def Call.write (m : Contents) : Call → Contents
  | update key value => Function.update m key (if value = [] then none else some value)
  | delete key => Function.update m key none
  | get _ | hash => m

def written (calls : List Call) : Contents := calls.foldl Call.write .empty

/-- The tree has the values of the map and no others. -/
structure Holds (t : Tree) (m : Contents) : Prop where
  wf : t.WF
  get_eq : ∀ key, t.get (keybytesToHex key) = m key
  keys : ∀ k, t.get k ≠ none → ∃ key, k = keybytesToHex key
  filled : ∀ key, m key ≠ some []

namespace Holds

variable {t t' : Tree} {m : Contents}

theorem empty : Holds .nil .empty :=
  ⟨trivial, fun _ => rfl, fun _ h => absurd rfl h, fun _ h => (nomatch h)⟩

variable (h : Holds t m)
include h

theorem sound : Sound t := by
  refine ⟨h.wf, fun k hk => ?_, fun k hk => ?_⟩
  · obtain ⟨key, rfl⟩ := h.keys k hk
    exact hexed_keybytesToHex key
  · obtain ⟨key, rfl⟩ := h.keys k (by simp [hk])
    exact h.filled key ((h.get_eq key).symm.trans hk)

theorem apart (key : Bytes) : t.Apart (keybytesToHex key) := by
  refine h.sound.apart ?_ (hexed_keybytesToHex key) (keybytesToHex_ne_nil key)
  by_contra hne
  obtain ⟨key', hkey⟩ := h.keys [] hne
  exact keybytesToHex_ne_nil key' hkey.symm

theorem change (hwf : t'.WF) {key : Bytes} {v : Option Bytes}
    (hget : ∀ k, t'.get k = if k = keybytesToHex key then v else t.get k) (hv : v ≠ some []) :
    Holds t' (Function.update m key v) := by
  refine ⟨hwf, fun key' => ?_, fun k hk => ?_, fun key' => ?_⟩
  · simp only [hget, Function.update_apply, h.get_eq, keybytesToHex_injective.eq_iff]
  · rw [hget] at hk
    split at hk
    case isTrue heq => exact ⟨key, heq⟩
    case isFalse => exact h.keys k hk
  · rw [Function.update_apply]
    split
    · exact hv
    · exact h.filled key'

theorem insert (key : Bytes) {v : Bytes} (hv : v ≠ []) :
    Holds (t.insert (keybytesToHex key) v) (Function.update m key (some v)) :=
  h.change (t.wf_insert _ v h.wf (h.apart key)) (t.get_insert _ v h.wf (h.apart key))
    (by simpa using hv)

theorem erase (key : Bytes) :
    Holds (t.erase (List.finRange 17) (keybytesToHex key)) (Function.update m key none) :=
  h.change (t.wf_erase List.mem_finRange (List.nodup_finRange 17) _ h.wf (h.apart key))
    (t.get_erase List.mem_finRange _ h.wf (h.apart key)) (by simp)

theorem branches (hne : t ≠ .nil) : branches t = true := by
  cases t with
  | nil => exact absurd rfl hne
  | value v =>
    obtain ⟨key, hkey⟩ := h.keys [] (by simp [Radix.Tree.get])
    exact absurd hkey.symm (keybytesToHex_ne_nil key)
  | short key c => rfl
  | full ch => rfl

theorem unique (h' : Holds t' m) : t = t' := by
  refine Radix.Tree.ext_get t t' h.wf h'.wf fun k => ?_
  by_cases hk : ∃ key, k = keybytesToHex key
  · obtain ⟨key, rfl⟩ := hk
    rw [h.get_eq, h'.get_eq]
  · have hnone : t.get k = none := by_contra fun hne => hk (h.keys k hne)
    have hnone' : t'.get k = none := by_contra fun hne => hk (h'.keys k hne)
    rw [hnone, hnone']

end Holds

/-! ## Histories -/

section Histories

variable [HashFns] {db : Bytes → Except TrieError (Option LiveNode)}
  {known : Bytes → Option LiveNode} {root : LiveNode} {t : Tree} {m : Contents}

/-- The root stands for the tree of a map. -/
structure Roots (known : Bytes → Option LiveNode) (root : LiveNode) (t : Tree) (m : Contents) :
    Prop where
  live : Live known true root t
  holds : Holds t m

omit [HashFns] in
theorem fuel_enough (n : LiveNode) (key : Bytes) :
    steps n (keybytesToHex key) ≤ fuelFor (keybytesToHex key) :=
  steps_le _ _

section

variable (hdb : Within known db) (h : Roots known root t m)
include hdb h

theorem trieGet_roots (key : Bytes) :
    ∃ root', trieGet db root key = .ok (m key, root') ∧ Roots known root' t m := by
  obtain ⟨n', did, heq, hlive, -⟩ := tryGet_live hdb _ [] h.live h.holds.wf (h.holds.apart key)
    (fuel_enough root key)
  refine ⟨if did then n' else root, ?_, ?_, h.holds⟩
  · simp only [trieGet, heq, h.holds.get_eq]
    rfl
  · cases did with
    | true => exact hlive
    | false => exact h.live

theorem trieDelete_roots (key : Bytes) :
    ∃ root', trieDelete db root key = .ok root' ∧
      Roots known root' (t.erase (List.finRange 17) (keybytesToHex key))
        (Function.update m key none) := by
  obtain ⟨dirty, n', heq, hlive, -⟩ := delete_live hdb _ [] h.live h.holds.sound
    (h.holds.apart key) (fuel_enough root key)
  exact ⟨n', by simp only [trieDelete, heq]; rfl, hlive, h.holds.erase key⟩

theorem trieInsert_roots (key v : Bytes)
    (hv : v ≠ []) :
    ∃ root', trieUpdate db root key v = .ok root' ∧
      Roots known root' (t.insert (keybytesToHex key) v) (Function.update m key (some v)) := by
  obtain ⟨dirty, n', heq, hlive, -⟩ := insert_live hdb _ [] v h.live h.holds.wf
    (h.holds.apart key) (fuel_enough root key)
  refine ⟨n', ?_, hlive, h.holds.insert key hv⟩
  simp only [trieUpdate, ne_eq, List.length_eq_zero_iff, hv, not_false_eq_true, if_true, heq]
  rfl

end

theorem trieHash_eq (h : Roots known root t m) (hne : t ≠ .nil) :
    trieHash root = .ok (treeHash t, (hash root true).2) := by
  have hnil : root.isNil = false := by
    rw [h.live.isNil, Radix.Tree.isNil_eq_false]
    exact hne
  have hst := (hash_live h.live h.holds.sound hne).1
  have hhash := hst.sealed ⟨h.holds.branches hne, Or.inl rfl⟩
  simp [trieHash, hashRoot, hnil, hhash]

theorem trieHash_roots (h : Roots known root t m) :
    ∃ root', trieHash root = .ok (treeHash t, root') ∧ Roots known root' t m := by
  by_cases hnil : t = .nil
  · subst hnil
    have hroot : root = .nil := by
      cases h.live with
      | nil => rfl
      | hash hs => exact absurd hs not_sealed_nil
    subst hroot
    exact ⟨.nil, rfl, h⟩
  · obtain ⟨-, hlive, -⟩ := hash_live h.live h.holds.sound hnil
    exact ⟨(hash root true).2, trieHash_eq h hnil, hlive, h.holds⟩

theorem exec_roots (hdb : Within known db) (h : Roots known root t m) (call : Call) :
    ∃ root' t', call.exec db root = .ok root' ∧ Roots known root' t' (call.write m) := by
  cases call with
  | update key v =>
    by_cases hv : v = []
    · obtain ⟨root', heq, h'⟩ := trieDelete_roots hdb h key
      exact ⟨root', _, by simpa [Call.exec, trieUpdate, hv] using heq,
        by simpa [Call.write, hv] using h'⟩
    · obtain ⟨root', heq, h'⟩ := trieInsert_roots hdb h key v hv
      exact ⟨root', _, heq, by simpa [Call.write, hv] using h'⟩
  | delete key =>
    obtain ⟨root', heq, h'⟩ := trieDelete_roots hdb h key
    exact ⟨root', _, heq, h'⟩
  | get key =>
    obtain ⟨root', heq, h'⟩ := trieGet_roots hdb h key
    exact ⟨root', t, by rw [Call.exec, heq]; rfl, h'⟩
  | hash =>
    obtain ⟨root', heq, h'⟩ := trieHash_roots h
    exact ⟨root', t, by rw [Call.exec, heq]; rfl, h'⟩

theorem run_roots (hdb : Within known db) (calls : List Call) :
    ∀ {root : LiveNode} {t : Tree} {m : Contents}, Roots known root t m →
    ∃ root' t', run db root calls = .ok root' ∧
      Roots known root' t' (calls.foldl Call.write m) := by
  induction calls with
  | nil => exact fun {root t m} h => ⟨root, t, rfl, h⟩
  | cons call calls ih =>
    intro root t m h
    obtain ⟨root1, t1, heq1, h1⟩ := exec_roots hdb h call
    obtain ⟨root2, t2, heq2, h2⟩ := ih h1
    refine ⟨root2, t2, ?_, h2⟩
    rw [run, List.foldlM_cons, heq1]
    exact heq2

end Histories

/-! ## Minimal form -/

/-- All nodes are in memory, no short node has a short child, and every full node has at least two
children. -/
def Node.Minimal : LiveNode → Prop
  | nil | value _ => True
  | short _ val _ => (∀ key v flags, val ≠ short key v flags) ∧ val.Minimal
  | full ch _ => (∃ i j, i ≠ j ∧ (ch i).isNil = false ∧ (ch j).isNil = false) ∧
      ∀ i, (ch i).Minimal
  | hash _ => False

theorem minimal_of_live [HashFns] {root : Bool} {n : LiveNode} {t : Tree}
    (h : Live (fun _ => none) root n t) (hwf : t.WF) : n.Minimal := by
  induction h with
  | nil | value => trivial
  | hash hs hheld => exact (nomatch hheld.get hs)
  | @short root key n flags t hc _ _ ih =>
    obtain ⟨-, hsolid, hwf⟩ := hwf
    refine ⟨?_, ih hwf⟩
    rintro key' v' flags' rfl
    cases hc with
    | short => exact hsolid
  | @full root ch flags ts hc _ _ ih =>
    obtain ⟨⟨i, j, hij, hi, hj⟩, hwf⟩ := hwf
    refine ⟨⟨i, j, hij, ?_, ?_⟩, fun i => ih i (hwf i)⟩
    · rw [(hc i).isNil, Radix.Tree.isNil_eq_false]
      exact hi
    · rw [(hc j).isNil, Radix.Tree.isNil_eq_false]
      exact hj

/-- After any history on an empty trie, it is a map of the values last written, in minimal form,
and its hash is that of any other history with these values. -/
theorem trie_is_map [HashFns] (db : Bytes → Except TrieError (Option LiveNode))
    (calls : List Call) :
    ∃ root, run db .nil calls = .ok root ∧
      (∀ key, ∃ root', trieGet db root key = .ok (written calls key, root')) ∧
      root.Minimal ∧
      ∃ h cached, trieHash root = .ok (h, cached) ∧
        ∀ calls' root', run db .nil calls' = .ok root' → written calls' = written calls →
          ∃ cached', trieHash root' = .ok (h, cached') := by
  have hdb : Within (fun _ => none) db := fun _ _ h => (nomatch h)
  have hempty : Roots (fun _ => none) .nil .nil .empty := ⟨.nil, .empty⟩
  obtain ⟨root, t, heq, h⟩ := run_roots hdb calls hempty
  obtain ⟨cached, hhash, -⟩ := trieHash_roots h
  refine ⟨root, heq, fun key => ?_, minimal_of_live h.live h.holds.wf, treeHash t, cached, hhash,
    fun calls' root' heq' hsame => ?_⟩
  · obtain ⟨root', hget, -⟩ := trieGet_roots hdb h key
    exact ⟨root', hget⟩
  · obtain ⟨root'', t', heq'', h'⟩ := run_roots hdb calls' hempty
    obtain rfl : root'' = root' := Except.ok.inj (heq''.symm.trans heq')
    have ht : t' = t := h'.holds.unique (m := written calls') (hsame ▸ h.holds)
    obtain ⟨cached', hhash', -⟩ := trieHash_roots h'
    exact ⟨cached', ht ▸ hhash'⟩

end GethComments.Trie
