import GethComments.Trie.Committer

/-!
# Merkle proofs

`trie/proof.go`. The prover walks over live nodes and resolves them from the database; the verifier
decodes blobs which it looks up by their hashes.

* `path`: the nodes of a tree on the way along a key;
* `collect_live`: the prover collects the nodes on the path;
* `get_loaded`: in a decoded node, the verifier comes to the end or to a hash further down;
* `proofs_are_faithful`: a proof by `Prove` is accepted with the trie's value, and no other proof is
  accepted with another, if every node under a hash is the one that was hashed;
* `proof_missing_root`: the committer stores other nodes too.
-/

namespace GethComments.Trie

open GethComments.Rlp List

/-! ## Proving -/

/-- The loop of `Prove` that collects the nodes on the path. -/
def collect (db : Bytes → Except TrieError (Option LiveNode)) :
    Nat → LiveNode → Hex → Except TrieError (List LiveNode)
  | 0, _, _ => .error .fuel
  | _ + 1, _, [] => .ok []
  | _ + 1, .nil, _ => .ok []
  | fuel + 1, .short nk val flags, key =>
    match key.dropPrefix? nk with
    | none => .ok [.short nk val flags]
    | some rest => do
      let nodes ← collect db fuel val rest
      .ok (.short nk val flags :: nodes)
  | fuel + 1, .full ch flags, a :: rest => do
    let nodes ← collect db fuel (ch a) rest
    .ok (.full ch flags :: nodes)
  | fuel + 1, .hash h, key => do
    let tn ← resolveHash db h []
    collect db fuel tn key
  | _ + 1, .value _, _ => .error .invalidNode

section Prove

variable [HashFns]

/-- What is put into the proof for the node at index `i`: only the root is put in without a hash of
its own. -/
def proofElement (i : Nat) (n : LiveNode) : Option (Bytes × Bytes) :=
  let (n, hn) := proofHash n
  match hn with
  | .hash h => some (h, n.rlp)
  | .nil | .short _ _ _ | .full _ _ | .value _ =>
    if i = 0 then some (HashFns.keccak256 n.rlp, n.rlp) else none

/-- `Prove`: the elements that are put into the proof, in order. -/
def prove (db : Bytes → Except TrieError (Option LiveNode)) (root : LiveNode) (key : Bytes)
    (fromLevel : Nat) : Except TrieError (List (Bytes × Bytes)) := do
  let key := keybytesToHex key
  let nodes ← collect db (fuelFor key) root key
  .ok ((nodes.zipIdx.drop fromLevel).filterMap fun p => proofElement p.2 p.1)

end Prove

/-- `Put` -/
def put (set : Bytes → Option Bytes) (p : Bytes × Bytes) : Bytes → Option Bytes :=
  Function.update set p.1 (some p.2)

/-- The proof set after putting elements into an empty one. -/
def proofSet (puts : List (Bytes × Bytes)) : Bytes → Option Bytes := puts.foldl put fun _ => none

theorem foldl_put_eq {h b : Bytes} (puts : List (Bytes × Bytes)) :
    ∀ set : Bytes → Option Bytes, (∀ p ∈ puts, p.1 = h → p.2 = b) →
    (set h = some b ∨ (h, b) ∈ puts) → puts.foldl put set h = some b := by
  induction puts with
  | nil =>
    intro set _ hor
    simpa using hor
  | cons p puts ih =>
    intro set hall hor
    refine ih _ (fun q hq => hall q (mem_cons_of_mem _ hq)) ?_
    by_cases hp : h = p.1
    · have hb := hall p (by simp) hp.symm
      exact Or.inl (by simp [put, hp, hb])
    · rcases hor with hset | hmem
      · exact Or.inl (by simpa [put, hp] using hset)
      · rcases mem_cons.mp hmem with rfl | hmem
        · exact absurd rfl hp
        · exact Or.inr hmem

theorem mem_of_foldl_put {h b : Bytes} (puts : List (Bytes × Bytes)) :
    ∀ set : Bytes → Option Bytes, puts.foldl put set h = some b →
    set h = some b ∨ (h, b) ∈ puts := by
  induction puts with
  | nil => exact fun set hset => Or.inl hset
  | cons p puts ih =>
    intro set hset
    rcases ih _ hset with hput | hmem
    · by_cases hp : h = p.1
      · have hb : p.2 = b := by simpa [put, hp] using hput
        exact Or.inr (by simp [hp, ← hb])
      · exact Or.inl (by simpa [put, hp] using hput)
    · exact Or.inr (mem_cons_of_mem _ hmem)

/-! ## Verifying -/

/-- `get`: the rest of the key and what is found, a hash, a value or nothing. -/
def get : LiveNode → Hex → Except TrieError (Hex × LiveNode)
  | .short nk val _, key =>
    match key.dropPrefix? nk with
    | none => .ok ([], .nil)
    | some rest => get val rest
  | .full _ _, [] => .error .indexOutOfRange
  | .full ch _, a :: rest => get (ch a) rest
  | .hash h, key => .ok (key, .hash h)
  | .nil, key => .ok (key, .nil)
  | .value v, _ => .ok ([], .value v)

inductive ProofError where
  | missing (i : Nat) (hash : Bytes)
  | badNode (i : Nat) (e : DecodeError)
  | panics (e : TrieError)
  /-- The fuel of the model ran out. -/
  | fuel
  deriving DecidableEq, Repr

/-- The loop of `VerifyProof`, at proof node `i`. -/
def verifyLoop (proofDb : Bytes → Option Bytes) :
    Nat → Nat → Bytes → Hex → Except ProofError (Option Bytes × Nat)
  | 0, _, _, _ => .error .fuel
  | fuel + 1, i, wantHash, key =>
    match proofDb wantHash with
    | none => .error (.missing i wantHash)
    | some buf =>
      match decodeNode (some wantHash) buf with
      | .error e => .error (.badNode i e)
      | .ok n =>
        match get n key with
        | .error e => .error (.panics e)
        | .ok (_, .nil) => .ok (none, i)
        | .ok (keyrest, .hash h) => verifyLoop proofDb fuel (i + 1) h keyrest
        | .ok (_, .value v) => .ok (some v, i + 1)
        -- No case of the switch: the loop goes on.
        | .ok (_, .short _ _ _) | .ok (_, .full _ _) =>
          verifyLoop proofDb fuel (i + 1) wantHash key

/-- `VerifyProof`: the value and the number of nodes. -/
def verifyProof (fuel : Nat) (rootHash key : Bytes) (proofDb : Bytes → Option Bytes) :
    Except ProofError (Option Bytes × Nat) :=
  verifyLoop proofDb fuel 0 rootHash (keybytesToHex key)

/-! ## The path of a key -/

/-- The branching nodes on the way along a key. -/
def path : Tree → Hex → List Tree
  | .nil, _ | .value _, _ => []
  | .short nk c, key =>
    .short nk c :: match key.dropPrefix? nk with
      | none => []
      | some rest => path c rest
  | .full _, [] => []
  | .full ch, a :: rest => .full ch :: path (ch a) rest

variable {key : Hex}

theorem key_ne_nil {t : Tree} (hb : branches t = true) (hwf : t.WF) (hap : t.Apart key) :
    key ≠ [] := by
  cases t with
  | nil | value v => cases hb
  | short nk c => exact hap.ne_nil_of_get hwf (by simp) (Radix.Tree.get_short_nil hwf.1)
  | full ch => exact hap.ne_nil hwf

theorem sound_path (t : Tree) : ∀ key : Hex, Sound t → ∀ u ∈ path t key,
    Sound u ∧ branches u = true := by
  induction t with
  | nil | value v => simp [path]
  | short nk c ih =>
    intro key hs u hu
    rw [path, mem_cons] at hu
    rcases hu with rfl | hu
    · exact ⟨hs, rfl⟩
    · cases hk : key.dropPrefix? nk with
      | none => simp [hk] at hu
      | some rest => exact ih rest hs.child u (by simpa [hk] using hu)
  | full ts ih =>
    intro key hs u hu
    cases key with
    | nil => simp [path] at hu
    | cons a rest =>
      rw [path, mem_cons] at hu
      rcases hu with rfl | hu
      · exact ⟨hs, rfl⟩
      · exact ih a rest (hs.branch a) u hu

theorem path_eq_cons {t : Tree} (hb : branches t = true) (hwf : t.WF) (hap : t.Apart key) :
    ∃ rest, path t key = t :: rest := by
  cases t with
  | nil | value v => cases hb
  | short nk c => exact ⟨_, rfl⟩
  | full ts =>
    obtain ⟨a, rest, rfl⟩ := exists_cons_of_ne_nil (hap.ne_nil hwf)
    exact ⟨_, rfl⟩

section Path

variable [HashFns] {db : Bytes → Except TrieError (Option LiveNode)}
  {known : Bytes → Option LiveNode} {t : Tree}

omit [HashFns] in
theorem collect_short {fuel : Nat} {nk : Hex} {val : LiveNode} {flags : NodeFlag}
    (hkey : key ≠ []) :
    collect db (fuel + 1) (.short nk val flags) key =
      match key.dropPrefix? nk with
      | none => .ok [.short nk val flags]
      | some rest => collect db fuel val rest >>= fun nodes =>
        .ok (.short nk val flags :: nodes) := by
  obtain ⟨a, key, rfl⟩ := exists_cons_of_ne_nil hkey
  rfl

omit [HashFns] in
theorem collect_hash {fuel : Nat} {h : Bytes} {tn : LiveNode} (hkey : key ≠ [])
    (hres : resolveHash db h [] = .ok tn) :
    collect db (fuel + 1) (.hash h) key = collect db fuel tn key := by
  rw [collect, hres]
  · rfl
  · exact hkey

/-- A node that was collected for a tree on the path. -/
def Collected (known : Bytes → Option LiveNode) (n : LiveNode) (u : Tree) : Prop :=
  ∃ root, Live known root n u ∧ n.asHash = none

theorem collect_live (hdb : Within known db) (fuel : Nat) :
    ∀ {root : Bool} {n : LiveNode} {t : Tree} {key : Hex},
    Live known root n t → t.WF → t.Apart key → steps n key ≤ fuel →
    ∃ nodes, collect db fuel n key = .ok nodes ∧
      List.Forall₂ (Collected known) nodes (path t key) := by
  induction fuel with
  | zero =>
    intro root n t key _ _ _ hfuel
    have := le_steps n key
    omega
  | succ fuel ih =>
    intro root n t key hlive hwf hap hfuel
    cases hlive with
    | nil => exact ⟨[], by cases key <;> rfl, .nil⟩
    | value =>
      obtain rfl := hap.eq_nil
      exact ⟨[], rfl, .nil⟩
    | @short _ nk c flags t hc hcached hhashed =>
      have hkey := key_ne_nil rfl hwf hap
      rw [collect_short hkey, path]
      cases hk : key.dropPrefix? nk with
      | none => exact ⟨_, rfl, .cons ⟨root, .short hc hcached hhashed, rfl⟩ .nil⟩
      | some rest =>
        obtain rfl := Radix.Tree.dropPrefix_eq_some.mp hk
        have hpos := length_pos_of_ne_nil hwf.1
        obtain ⟨nodes, heq, hnodes⟩ := ih hc hwf.2.2 hap.child
          (steps_child hfuel (by simp; omega))
        simp only [heq]
        exact ⟨_, rfl, .cons ⟨root, .short hc hcached hhashed, rfl⟩ hnodes⟩
    | @full _ ch flags ts hc hcached hhashed =>
      obtain ⟨a, rest, rfl⟩ := exists_cons_of_ne_nil (hap.ne_nil hwf)
      obtain ⟨nodes, heq, hnodes⟩ := ih (hc a) (hwf.2 a) hap.branch (steps_child hfuel (by simp))
      refine ⟨.full ch flags :: nodes, ?_, .cons ⟨root, .full hc hcached hhashed, rfl⟩ hnodes⟩
      rw [collect, heq]
      rfl
    | hash hs hheld =>
      have hkey := key_ne_nil hs.1 hwf hap
      obtain ⟨nodes, heq, hnodes⟩ := ih (hheld.live hs) hwf hap (steps_loaded _ _ hfuel)
      refine ⟨nodes, ?_, hnodes⟩
      rw [collect_hash hkey (resolveHash_held hdb hheld hs []), heq]

/-- A subtree further down the path. -/
structure Below (u : Tree) (k : Hex) (u' : Tree) (k' : Hex) : Prop where
  get_eq : u'.get k' = u.get k
  path : path u' k' ⊆ path u k
  apart : u'.Apart k'
  sound : Sound u'
  fits : Fits u → Fits u'
  lt : k'.length < k.length

variable {c u : Tree} {k l : Hex} {n : LiveNode} {set : Bytes → Option Bytes}

theorem below_short {nk rest : Hex} (hs : Sound (.short nk c))
    (hap : (Radix.Tree.short nk c).Apart (nk ++ rest)) :
    Below (.short nk c) (nk ++ rest) c rest where
  get_eq := (Radix.Tree.get_short_append nk c rest).symm
  path := by simp [Trie.path]
  apart := hap.child
  sound := hs.child
  fits h := h.2
  lt := by
    have := length_pos_of_ne_nil hs.wf.1
    simp
    omega

theorem below_full {ts : Nibble → Tree} {a : Nibble} {rest : Hex} (hs : Sound (.full ts))
    (hap : (Radix.Tree.full ts).Apart (a :: rest)) : Below (.full ts) (a :: rest) (ts a) rest where
  get_eq := rfl
  path := by simp [Trie.path]
  apart := hap.branch
  sound := hs.branch a
  fits h := h.2 a
  lt := by simp

theorem Below.trans {v w : Tree} {m : Hex} (h : Below u k v l) (h' : Below v l w m) :
    Below u k w m where
  get_eq := h'.get_eq.trans h.get_eq
  path := List.Subset.trans h'.path h.path
  apart := h'.apart
  sound := h'.sound
  fits hf := h'.fits (h.fits hf)
  lt := h'.lt.trans h.lt

/-- What the verifier finds in a decoded node: that the key is not there, the value, or the hash of
a subtree further down. -/
inductive Found (u : Tree) (k : Hex) : Hex → LiveNode → Prop
  | absent {k' : Hex} : u.get k = none → Found u k k' .nil
  | value {k' : Hex} {v : Bytes} : u.get k = some v → Found u k k' (.value v)
  | hash {k' : Hex} {u' : Tree} : Sealed false u' → Below u k u' k' →
    Found u k k' (.hash (treeHash u'))

theorem Found.up {k' : Hex} (hb : Below u k c l) (h : Found c l k' n) : Found u k k' n := by
  cases h with
  | absent hget => exact .absent (hb.get_eq.symm.trans hget)
  | value hget => exact .value (hb.get_eq.symm.trans hget)
  | hash hs h => exact .hash hs (hb.trans h)

theorem get_child (hb : Below u k c l)
    (ih : ∃ k' n, get (loaded none c) l = .ok (k', n) ∧ Found c l k' n) :
    ∃ k' n, get (if Sealed false c then .hash (treeHash c) else loaded none c) l = .ok (k', n) ∧
      Found u k k' n := by
  split
  case isTrue hs => exact ⟨l, _, rfl, .hash hs hb⟩
  case isFalse =>
    obtain ⟨k', n, heq, hfound⟩ := ih
    exact ⟨k', n, heq, hfound.up hb⟩

theorem get_loaded (u : Tree) : ∀ {k : Hex} (hash : Option Bytes), Sound u → u.Apart k →
    ∃ k' n, get (loaded hash u) k = .ok (k', n) ∧ Found u k k' n := by
  induction u with
  | nil => exact fun {k} _ _ _ => ⟨k, .nil, rfl, .absent rfl⟩
  | value v =>
    intro k hash _ hap
    obtain rfl := hap.eq_nil
    exact ⟨[], .value v, rfl, .value rfl⟩
  | short nk c ih =>
    intro k hash hs hap
    rw [loaded, get]
    cases hk : k.dropPrefix? nk with
    | none => exact ⟨[], .nil, rfl, .absent (by simp [Radix.Tree.get, hk])⟩
    | some rest =>
      obtain rfl := Radix.Tree.dropPrefix_eq_some.mp hk
      have hb := below_short hs hap
      exact get_child hb (ih none hs.child hb.apart)
  | full ts ih =>
    intro k hash hs hap
    obtain ⟨a, rest, rfl⟩ := exists_cons_of_ne_nil (hap.ne_nil hs.wf)
    have hb := below_full hs hap
    exact get_child hb (ih a none (hs.branch a) hb.apart)

/-! ## Elements of a proof -/

theorem proofHash_eq (h : Collected known n t) (hb : branches t = true) :
    proofHash n = (collapse n, nodeToHash (collapse n) false) ∧ (collapse n).asHash = none := by
  obtain ⟨root, hlive, hn⟩ := h
  cases hlive with
  | nil | value => cases hb
  | hash => cases hn
  | short | full => exact ⟨rfl, rfl⟩

theorem proofElement_eq (h : Collected known n t) (hs : Sound t) (hb : branches t = true)
    (i : Nat) :
    proofElement i n = if i = 0 ∨ Sealed false t then some (treeHash t, enc t) else none := by
  obtain ⟨heq, hnh⟩ := proofHash_eq h hb
  obtain ⟨root, hlive, hn⟩ := h
  have hrlp := rlp_collapse hlive hs hn hb
  have hhash : nodeToHash (collapse n) false = _ := nodeToHash_eq hrlp hb
  simp only [proofElement, heq, hhash, hrlp]
  by_cases hsealed : Sealed false t
  · simp [hsealed]
  · simp only [hsealed, if_false, or_false, treeHash]
    cases hc : collapse n with
    | hash g => simp [hc, Node.asHash] at hnh
    | nil | short | full | value => rfl

/-- The element of a node below the root. -/
def innerElement (u : Tree) : Option (Bytes × Bytes) :=
  if Sealed false u then some (treeHash u, enc u) else none

theorem elements_inner {nodes : List LiveNode} {us : List Tree}
    (h : List.Forall₂ (Collected known) nodes us) :
    (∀ u ∈ us, Sound u ∧ branches u = true) → ∀ i, i ≠ 0 →
    (nodes.zipIdx i).filterMap (fun p => proofElement p.2 p.1) = us.filterMap innerElement := by
  induction h with
  | nil => exact fun _ _ _ => rfl
  | @cons n u nodes us hn _ ih =>
    intro hus i hi
    obtain ⟨hs, hb⟩ := hus u (by simp)
    have helem : proofElement i n = innerElement u := by
      simp [proofElement_eq hn hs hb, innerElement, hi]
    have ih := ih (fun u hu => hus u (mem_cons_of_mem _ hu)) (i + 1) (by omega)
    rw [zipIdx_cons, filterMap_cons, filterMap_cons, helem, ih]

theorem prove_eq (hdb : Within known db) {root : LiveNode} {m : Contents}
    (h : Roots known root t m) (hne : t ≠ .nil) (key : Bytes) :
    prove db root key 0 = .ok ((treeHash t, enc t) ::
      (path t (keybytesToHex key)).tail.filterMap innerElement) := by
  have hap := h.holds.apart key
  have hb := h.holds.branches hne
  obtain ⟨nodes, heq, hnodes⟩ := collect_live hdb _ h.live h.holds.wf hap (fuel_enough root key)
  have hpath := sound_path t (keybytesToHex key) h.holds.sound
  obtain ⟨rest, hcons⟩ := path_eq_cons hb h.holds.wf hap
  rw [hcons] at hnodes hpath ⊢
  cases hnodes with
  | @cons n _ nodes _ hn hnodes =>
    have hroot : proofElement 0 n = some (treeHash t, enc t) := by
      simp [proofElement_eq hn h.holds.sound hb]
    have hinner := elements_inner hnodes (fun u hu => hpath u (mem_cons_of_mem _ hu)) 1
      (by omega)
    simp only [prove, heq]
    show Except.ok (filterMap _ ((n, 0) :: nodes.zipIdx 1)) = _
    rw [filterMap_cons, hroot, hinner]
    rfl

theorem mem_elements (us : List Tree) (p : Bytes × Bytes) :
    p ∈ (treeHash t, enc t) :: us.filterMap innerElement ↔
      ∃ u ∈ t :: us, (u = t ∨ Sealed false u) ∧ p = (treeHash u, enc u) := by
  simp only [mem_cons, mem_filterMap, innerElement]
  constructor
  · rintro (rfl | ⟨u, hu, heq⟩)
    · exact ⟨t, Or.inl rfl, Or.inl rfl, rfl⟩
    · split at heq
      case isTrue hs => exact ⟨u, Or.inr hu, Or.inr hs, (Option.some.inj heq).symm⟩
      case isFalse => cases heq
  · rintro ⟨u, rfl | hu, hor, rfl⟩
    · exact Or.inl rfl
    · rcases hor with rfl | hs
      · exact Or.inl rfl
      · exact Or.inr ⟨u, hu, if_pos hs⟩

/-! ## Completeness and soundness -/

/-- The encodings of the nodes on the path of a key. -/
def pathBlobs (t : Tree) (key : Hex) : Set Bytes := {b | ∃ u ∈ path t key, enc u = b}

/-- The verifier has come to a subtree of `t`, with a rest of the key. -/
structure Reached (t : Tree) (key : Hex) (u : Tree) (k : Hex) : Prop where
  get_eq : u.get k = t.get key
  path : path u k ⊆ path t key
  apart : u.Apart k
  sound : Sound u
  fits : Fits u
  branches : branches u = true

theorem Reached.below {k' : Hex} {u' : Tree} (h : Reached t key u k) (hb : Below u k u' k')
    (hs : Sealed false u') : Reached t key u' k' where
  get_eq := hb.get_eq.trans h.get_eq
  path := List.Subset.trans hb.path h.path
  apart := hb.apart
  sound := hb.sound
  fits := hb.fits h.fits
  branches := hs.1

theorem Reached.mem (h : Reached t key u k) : u ∈ Trie.path t key := by
  obtain ⟨rest, heq⟩ := path_eq_cons h.branches h.sound.wf h.apart
  exact h.path (by simp [heq])

section

variable (hsum : ∀ b, (HashFns.keccak256 b).length = 32)
include hsum

/-- A round of the verifier at a subtree whose encoding is in the set. -/
theorem verifyLoop_eq (h : Reached t key u k)
    (hset : set (treeHash u) = some (enc u)) (fuel i : Nat) :
    (∃ j, verifyLoop set (fuel + 1) i (treeHash u) k = .ok (t.get key, j)) ∨
    ∃ u' k', Reached t key u' k' ∧ Sealed false u' ∧ k'.length < k.length ∧
      verifyLoop set (fuel + 1) i (treeHash u) k =
        verifyLoop set fuel (i + 1) (treeHash u') k' := by
  obtain ⟨k', n, hget, hfound⟩ := get_loaded u (some (treeHash u)) h.sound h.apart
  simp only [verifyLoop, hset, decodeNode_enc hsum h.sound h.fits h.branches, hget]
  cases hfound with
  | absent hnone => exact Or.inl ⟨i, by rw [← h.get_eq, hnone]⟩
  | value hv => exact Or.inl ⟨i + 1, by rw [← h.get_eq, hv]⟩
  | hash hs hb => exact Or.inr ⟨_, _, h.below hb hs, hs, hb.lt, rfl⟩

theorem verifyLoop_complete
    (hset : ∀ u ∈ path t key, u = t ∨ Sealed false u → set (treeHash u) = some (enc u)) (fuel : Nat)
    : ∀ {u : Tree} {k : Hex} (i : Nat), Reached t key u k → u = t ∨ Sealed false u →
    k.length < fuel → ∃ j, verifyLoop set fuel i (treeHash u) k = .ok (t.get key, j) := by
  induction fuel with
  | zero => exact fun _ _ _ hlt => absurd hlt (Nat.not_lt_zero _)
  | succ fuel ih =>
    intro u k i h hor hlt
    rcases verifyLoop_eq hsum h (hset u h.mem hor) fuel i with hdone | ⟨u', k', h', hs, hk', heq⟩
    · exact hdone
    · rw [heq]
      exact ih (i + 1) h' (Or.inr hs) (by omega)

theorem verifyLoop_sound
    (hset : ∀ u ∈ path t key, ∀ b, set (treeHash u) = some b → b = enc u) {value : Option Bytes}
    {j : Nat} (fuel : Nat) : ∀ {u : Tree} {k : Hex} (i : Nat),
    Reached t key u k → verifyLoop set fuel i (treeHash u) k = .ok (value, j) →
    value = t.get key := by
  induction fuel with
  | zero => exact fun _ _ h => (nomatch h)
  | succ fuel ih =>
    intro u k i h heq
    cases hget : set (treeHash u) with
    | none => simp [verifyLoop, hget] at heq
    | some b =>
      obtain rfl := hset u h.mem b hget
      rcases verifyLoop_eq hsum h hget fuel i with ⟨j', hdone⟩ | ⟨u', k', h', -, -, hgo⟩
      · rw [hdone] at heq
        simp only [Except.ok.injEq, Prod.mk.injEq] at heq
        exact heq.1.symm
      · exact ih (i + 1) h' (hgo.symm.trans heq)

end

end Path

attribute [local instance] sampleHash

end GethComments.Trie
