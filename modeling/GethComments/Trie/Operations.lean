import GethComments.Trie.Node

/-!
# Operations on the trie

`tryGet`, `insert` and `delete` of `trie/trie.go`. Hash nodes are resolved through the database, so
the recursion is on fuel: a resolved node may be another hash node, and the source would go on.

* `tryGet_live`, `insert_live`, `delete_live`: the operations do to a node what the radix tree's do
  to the tree it stands for;
* `minimal_of_live`: no short node has a short child, and full nodes have at least two.
-/

namespace GethComments.Trie

open Function List

inductive TrieError where
  /-- `MissingNodeError` -/
  | missingNode (nodeHash : Bytes) (path : Hex)
  /-- The panic at a node of a type that cannot be at this place. -/
  | invalidNode
  /-- The panic at an index behind the end of a key. -/
  | indexOutOfRange
  /-- The panic at a stored node that cannot be decoded. -/
  | decodePanic (nodeHash : Bytes)
  /-- The panic at a nil pointer. -/
  | nilPointer
  /-- The fuel of the model ran out. -/
  | fuel
  deriving DecidableEq, Repr

section Operations

-- `t.db.node`, which may panic
variable (db : Bytes → Except TrieError (Option LiveNode))

def resolveHash (h : Bytes) (path : Hex) : Except TrieError LiveNode := do
  match ← db h with
  | some node => .ok node
  | none => .error (.missingNode h path)

def resolve (n : LiveNode) (path : Hex) : Except TrieError LiveNode :=
  match n with
  | .hash h => resolveHash db h path
  | n => .ok n

/-- `tryGet`: the value, the node with what was resolved, and whether something was. The keys are
`key[:pos]` and `key[pos:]`. -/
def tryGet : Nat → LiveNode → Hex → Hex → Except TrieError (Option Bytes × LiveNode × Bool)
  | 0, _, _, _ => .error .fuel
  | _ + 1, .nil, _, _ => .ok (none, .nil, false)
  | _ + 1, .value v, _, _ => .ok (some v, .value v, false)
  | fuel + 1, .short nk val flags, path, key =>
    match key.dropPrefix? nk with
    | none => .ok (none, .short nk val flags, false)
    | some rest => do
      let (v, newnode, didResolve) ← tryGet fuel val (path ++ nk) rest
      .ok (v, .short nk (if didResolve then newnode else val) flags, didResolve)
  | fuel + 1, .full ch flags, path, key =>
    match key with
    | [] => .error .indexOutOfRange
    | a :: rest => do
      let (v, newnode, didResolve) ← tryGet fuel (ch a) (path ++ [a]) rest
      .ok (v, .full (if didResolve then update ch a newnode else ch) flags, didResolve)
  | fuel + 1, .hash h, path, key => do
    let child ← resolveHash db h path
    let (v, newnode, _) ← tryGet fuel child path key
    .ok (v, newnode, true)

/-- `insert`: whether something changed, and the new node. -/
def insert : Nat → LiveNode → Hex → Hex → LiveNode → Except TrieError (Bool × LiveNode)
  | 0, _, _, _, _ => .error .fuel
  | _ + 1, n, _, [], value =>
    match n, value with
    | .value v, .value w => .ok (v ≠ w, value)
    -- The type assertion on `value` fails.
    | .value _, _ => .error .invalidNode
    | _, _ => .ok (true, value)
  | fuel + 1, .short nk val flags, path, key, value =>
    let matchlen := prefixLen key nk
    if matchlen = nk.length then do
      let (dirty, nn) ← insert fuel val (path ++ key.take matchlen) (key.drop matchlen) value
      .ok (if dirty then (true, .short nk nn newFlag) else (false, .short nk val flags))
    else
      match nk.drop matchlen, key.drop matchlen with
      | b :: nrest, a :: krest => do
        let (_, x) ← insert fuel .nil (path ++ nk.take (matchlen + 1)) nrest val
        let (_, y) ← insert fuel .nil (path ++ key.take (matchlen + 1)) krest value
        let branch : LiveNode :=
          .full (update (update (fun _ => .nil) b x) a y) newFlag
        .ok (true, if matchlen = 0 then branch else .short (key.take matchlen) branch newFlag)
      | _, _ => .error .indexOutOfRange
  | fuel + 1, .full ch flags, path, a :: rest, value => do
    let (dirty, nn) ← insert fuel (ch a) (path ++ [a]) rest value
    .ok (if dirty then (true, .full (update ch a nn) newFlag) else (false, .full ch flags))
  | _ + 1, .nil, _, key, value => .ok (true, .short key value newFlag)
  | fuel + 1, .hash h, path, key, value => do
    let rn ← resolveHash db h path
    let (dirty, nn) ← insert fuel rn path key value
    .ok (if dirty then (true, nn) else (false, rn))
  | _ + 1, .value _, _, _, _ => .error .invalidNode

/-- A short node in `delete`: if its child `cnode` is a short node, they are merged. -/
def mergeShort (key : Hex) (child cnode : LiveNode) : LiveNode :=
  match cnode with
  | .short ck cv _ => .short (key ++ ck) cv newFlag
  | .nil | .full _ _ | .hash _ | .value _ => .short key child newFlag

/-- The end of `delete` at a full node: it is reduced to a short node if one entry is left. -/
def reduce (ch : Fin 17 → LiveNode) (path : Hex) : Except TrieError LiveNode :=
  match (finRange 17).filter fun i => !(ch i).isNil with
  | [pos] =>
    if pos ≠ 16 then do
      let cnode ← resolve db (ch pos) path
      .ok (mergeShort [pos] (ch pos) cnode)
    else .ok (.short [pos] (ch pos) newFlag)
  | _ => .ok (.full ch newFlag)

/-- `delete`: whether something changed, and the new node. -/
def delete : Nat → LiveNode → Hex → Hex → Except TrieError (Bool × LiveNode)
  | 0, _, _, _ => .error .fuel
  | fuel + 1, .short nk val flags, path, key =>
    let matchlen := prefixLen key nk
    if matchlen < nk.length then .ok (false, .short nk val flags)
    else if matchlen = key.length then .ok (true, .nil)
    else do
      let (dirty, child) ← delete fuel val (path ++ key.take nk.length) (key.drop nk.length)
      if !dirty then .ok (false, .short nk val flags)
      else .ok (true, mergeShort nk child child)
  | fuel + 1, .full ch flags, path, key =>
    match key with
    | [] => .error .indexOutOfRange
    | a :: rest => do
      let (dirty, nn) ← delete fuel (ch a) (path ++ [a]) rest
      if !dirty then .ok (false, .full ch flags)
      else do
        let n ← reduce db (update ch a nn) path
        .ok (true, n)
  | _ + 1, .value _, _, _ => .ok (true, .nil)
  | _ + 1, .nil, _, _ => .ok (false, .nil)
  | fuel + 1, .hash h, path, key => do
    let rn ← resolveHash db h path
    let (dirty, nn) ← delete fuel rn path key
    .ok (if dirty then (true, nn) else (false, rn))

-- the equations are made once, here
attribute [local simp] insert delete

end Operations

/-! ## Fuel -/

/-- Enough fuel: two steps for each nibble, as the node below may be a hash. -/
def steps (n : LiveNode) (key : Hex) : Nat :=
  match n with
  | .hash _ => 2 * key.length + 2
  | .nil | .short _ _ _ | .full _ _ | .value _ => 2 * key.length + 1

theorem steps_le (n : LiveNode) (key : Hex) : steps n key ≤ 2 * key.length + 2 := by
  unfold steps
  split <;> omega

theorem le_steps (n : LiveNode) (key : Hex) : 2 * key.length + 1 ≤ steps n key := by
  unfold steps
  split <;> omega

theorem steps_child {fuel : Nat} {n n' : LiveNode} {key rest : Hex} (h : steps n key ≤ fuel + 1)
    (hlt : rest.length < key.length) : steps n' rest ≤ fuel := by
  have := le_steps n key
  have := steps_le n' rest
  omega

theorem steps_loaded [HashFns] {fuel : Nat} {key : Hex} (hash : Option Bytes) (t : Tree)
    {h : Bytes} (hfuel : steps (.hash h) key ≤ fuel + 1) : steps (loaded hash t) key ≤ fuel := by
  have heq : steps (loaded hash t) key = 2 * key.length + 1 := by cases t <;> rfl
  rw [heq]
  exact Nat.le_of_succ_le_succ hfuel

/-! ## Single steps -/

section Steps

variable {db : Bytes → Except TrieError (Option LiveNode)} {fuel : Nat} {h : Bytes}
  {nk rest key path : Hex} {c value rn : LiveNode} {ch : Fin 17 → LiveNode} {flags : NodeFlag}
  {a : Nibble}

theorem insert_nil (fuel : Nat) (n : LiveNode) (path key : Hex) :
    insert db (fuel + 1) .nil path key n =
      .ok (true, if key = [] then n else .short key n newFlag) := by
  cases key with
  | nil => cases n <;> rfl
  | cons a key => rfl

theorem insert_below (hnk : nk ≠ []) :
    insert db (fuel + 1) (.short nk c flags) path (nk ++ rest) value =
      (insert db fuel c (path ++ nk) rest value >>= fun r =>
        .ok (if r.1 then (true, .short nk r.2 newFlag) else (false, .short nk c flags))) := by
  obtain ⟨a, nk, rfl⟩ := exists_cons_of_ne_nil hnk
  have hlen : prefixLen (a :: nk ++ rest) (a :: nk) = (a :: nk).length :=
    Radix.Tree.commonLen_append _ _
  rw [cons_append] at hlen ⊢
  rw [insert, hlen]
  · simp
  · simp

theorem insert_fork {p kr nr : Hex} {b : Nibble} (hab : a ≠ b) :
    insert db (fuel + 2) (.short (p ++ b :: nr) c flags) path (p ++ a :: kr) value = .ok (true,
        let branch : LiveNode := .full (update (update (fun _ => .nil) b
          (if nr = [] then c else .short nr c newFlag)) a
          (if kr = [] then value else .short kr value newFlag)) newFlag
        if p = [] then branch else .short p branch newFlag) := by
  have hlen : prefixLen (p ++ a :: kr) (p ++ b :: nr) = p.length :=
    Radix.Tree.commonLen_fork hab _ _ _
  rw [insert, hlen]
  · simp only [length_append, length_cons, insert_nil, drop_left,
      take_left, length_eq_zero_iff]
    rw [if_neg (by omega)]
    rfl
  · simp

theorem insert_hash (hne : key ≠ []) (hres : resolveHash db h path = .ok rn) :
    insert db (fuel + 1) (.hash h) path key value = (insert db fuel rn path key value >>= fun r =>
        .ok (if r.1 then (true, r.2) else (false, rn))) := by
  rw [insert, hres]
  · rfl
  · exact hne

theorem asHash_mergeShort (key : Hex) (child cnode : LiveNode) :
    (mergeShort key child cnode).asHash = none := by
  cases cnode <;> rfl

theorem delete_apart (h : ∀ rest, key ≠ nk ++ rest) :
    delete db (fuel + 1) (.short nk c flags) path key = .ok (false, .short nk c flags) := by
  have hlen : prefixLen key nk < nk.length := Radix.Tree.commonLen_lt h
  simp [delete, hlen]

theorem delete_whole : delete db (fuel + 1) (.short nk c flags) path nk = .ok (true, .nil) := by
  have hlen : prefixLen nk nk = nk.length := by
    simpa [prefixLen] using Radix.Tree.commonLen_append nk []
  simp [delete, hlen]

theorem delete_below : delete db (fuel + 1) (.short nk c flags) path (nk ++ a :: rest) =
      (delete db fuel c (path ++ nk) (a :: rest) >>= fun r =>
        if !r.1 then .ok (false, .short nk c flags)
        else .ok (true, mergeShort nk r.2 r.2)) := by
  have hlen : prefixLen (nk ++ a :: rest) nk = nk.length := Radix.Tree.commonLen_append _ _
  simp only [delete, hlen, Nat.lt_irrefl, if_false, length_append, length_cons,
    take_left, drop_left]
  rw [if_neg (by omega)]

theorem delete_hash (hres : resolveHash db h path = .ok rn) :
    delete db (fuel + 1) (.hash h) path key =
      (delete db fuel rn path key >>= fun r => .ok (if r.1 then (true, r.2) else (false, rn))) := by
  rw [delete, hres]
  rfl

theorem delete_branch : delete db (fuel + 1) (.full ch flags) path (a :: rest) =
      (delete db fuel (ch a) (path ++ [a]) rest >>= fun r =>
        if !r.1 then .ok (false, .full ch flags)
        else reduce db (update ch a r.2) path >>= fun n => .ok (true, n)) := by
  rw [delete]

end Steps

/-! ## The radix tree behind a node -/

section Simulation

variable {ch : Fin 17 → LiveNode} {ts : Nibble → Tree} {n : LiveNode} {t : Tree}

theorem update_rel {P : LiveNode → Tree → Prop} {a : Nibble} (h : ∀ i, P (ch i) (ts i)) (hn : P n t)
    (i : Nibble) :
    P (update ch a n i) (update ts a t i) := by
  by_cases hi : i = a
  · subst hi
    simpa using hn
  · simpa [hi] using h i

theorem last_update (h : Sound (.full ts)) (a : Nibble) (rest : Hex) :
    let ts' := update ts a ((ts a).erase (finRange 17) rest)
    ts' 16 = .nil ∨ ∃ v, ts' 16 = .value v := by
  by_cases ha : 16 = a
  · subst ha
    rcases h.last with heq | ⟨v, heq⟩ <;> simp [heq, Radix.Tree.erase]
  · simpa [ha] using h.last

/-- The database has everything that is known of it. -/
def Within (known : Bytes → Option LiveNode) (db : Bytes → Except TrieError (Option LiveNode)) :
    Prop :=
  ∀ ⦃h n⦄, known h = some n → db h = .ok (some n)

variable [HashFns] {db : Bytes → Except TrieError (Option LiveNode)}
  {known : Bytes → Option LiveNode} {root : Bool}

theorem resolveHash_held (hdb : Within known db) (h : Held known root t) (hs : Sealed root t)
    (path : Hex) :
    resolveHash db (treeHash t) path = .ok (loaded (some (treeHash t)) t) := by
  rw [resolveHash, hdb (h.get hs)]
  rfl

theorem tryGet_live (hdb : Within known db) (fuel : Nat) :
    ∀ {root : Bool} {n : LiveNode} {t : Tree} {key : Hex} (path : Hex),
    Live known root n t → t.WF → t.Apart key → steps n key ≤ fuel →
    ∃ n' did, tryGet db fuel n path key = .ok (t.get key, n', did) ∧ Live known root n' t ∧
      (Hashed root n t → Hashed root n' t) := by
  induction fuel with
  | zero =>
    intro root n t key path _ _ _ hfuel
    have := le_steps n key
    omega
  | succ fuel ih =>
    intro root n t key path hlive hwf hap hfuel
    cases hlive with
    | nil => exact ⟨.nil, false, rfl, .nil, id⟩
    | value =>
      obtain rfl := hap.eq_nil
      exact ⟨_, false, rfl, .value, id⟩
    | @short _ nk c flags t hc hcached hhashed =>
      rw [tryGet, Radix.Tree.get]
      cases hk : key.dropPrefix? nk with
      | none => exact ⟨_, false, rfl, .short hc hcached hhashed, id⟩
      | some rest =>
        obtain rfl := Radix.Tree.dropPrefix_eq_some.mp hk
        have hpos := length_pos_of_ne_nil hwf.1
        obtain ⟨c', did, heq, hc', hh⟩ := ih (path ++ nk) hc hwf.2.2 hap.child
          (steps_child hfuel (by simp; omega))
        simp only [heq]
        refine ⟨_, did, rfl, ?_, id⟩
        cases did with
        | false => exact .short hc hcached hhashed
        | true => exact .short hc' hcached fun h => hh (hhashed h)
    | @full _ ch flags ts hc hcached hhashed =>
      obtain ⟨a, rest, rfl⟩ := exists_cons_of_ne_nil (hap.ne_nil hwf)
      obtain ⟨c', did, heq, hc', hh⟩ := ih (path ++ [a]) (hc a) (hwf.2 a) hap.branch
        (steps_child hfuel (by simp))
      simp only [tryGet, heq]
      refine ⟨_, did, rfl, ?_, id⟩
      cases did with
      | false => exact .full hc hcached hhashed
      | true =>
        refine .full (fun i => ?_) hcached fun h i => ?_
        · simpa using update_rel (a := a) hc hc' i
        · simpa using update_rel (a := a) (hhashed h) (hh (hhashed h a)) i
    | hash hs hheld =>
      obtain ⟨n', did, heq, hlive', hh⟩ := ih path (hheld.live hs) hwf hap (steps_loaded _ _ hfuel)
      refine ⟨n', true, ?_, hlive', fun _ => hh fun _ => ?_⟩
      · rw [tryGet, resolveHash_held hdb hheld hs]
        show (tryGet db fuel _ path key >>= fun r => _) = _
        rw [heq]
        rfl
      · cases t with
        | nil | value v => rfl
        | short nk c => rfl
        | full ts => rfl

/-! ## Insertion -/

theorem live_graft (hlive : Live known false n t) (key : Hex) :
    Live known false (if key = [] then n else .short key n newFlag) (Radix.Tree.graft key t) := by
  unfold Radix.Tree.graft
  split
  · exact hlive
  · exact hlive.newShort

theorem live_fork {a b : Nibble} {x y : LiveNode} {tx ty : Tree} (hx : Live known false x tx)
    (hy : Live known false y ty) (root : Bool) :
    Live known root (.full (update (update (fun _ => .nil) b x) a y) newFlag)
      (Radix.Tree.fork a ty b tx) := by
  refine .newFull fun i => ?_
  simp only [update_apply]
  split
  · exact hy
  · split
    · exact hx
    · exact .nil

theorem insert_live (hdb : Within known db) (fuel : Nat) :
    ∀ {root : Bool} {n : LiveNode} {t : Tree} {key : Hex} (path : Hex) (v : Bytes),
    Live known root n t → t.WF → t.Apart key → steps n key ≤ fuel →
    ∃ dirty n', insert db fuel n path key (.value v) = .ok (dirty, n') ∧
      Live known root n' (t.insert key v) ∧ (dirty = false → t.insert key v = t) := by
  induction fuel with
  | zero =>
    intro root n t key path v _ _ _ hfuel
    have := le_steps n key
    omega
  | succ fuel ih =>
    intro root n t key path v hlive hwf hap hfuel
    cases key with
    | nil =>
      -- The value replaces whatever stands here.
      rw [Radix.Tree.insert_nil_key]
      cases hlive with
      | @value _ w =>
        refine ⟨decide (w ≠ v), _, rfl, .value, fun h => ?_⟩
        have hw : w = v := by simpa using h
        rw [hw]
      | nil | short | full | hash => exact ⟨true, _, rfl, .value, fun h => (nomatch h)⟩
    | cons a key =>
      cases hlive with
      | nil => exact ⟨true, _, rfl, Live.newShort .value, fun h => (nomatch h)⟩
      | value => exact absurd hap.eq_nil (by simp)
      | @short _ nk c flags t hc hcached hhashed =>
        rcases Radix.Tree.insert_short nk t a key v with
          ⟨rest, hkey, hins⟩ | ⟨p, x, kr, b, nr, hab, hkey, rfl, hins⟩ | ⟨b, nr, hnk⟩
        · rw [hins, hkey, insert_below hwf.1]
          rw [hkey] at hap hfuel
          have hpos := length_pos_of_ne_nil hwf.1
          obtain ⟨dirty, c', heq, hc', hclean⟩ := ih (path ++ nk) v hc hwf.2.2 hap.child
            (steps_child hfuel (by simp; omega))
          rw [heq]
          cases dirty with
          | false =>
            rw [hclean rfl]
            exact ⟨false, _, rfl, .short hc hcached hhashed, fun _ => rfl⟩
          | true => exact ⟨true, _, rfl, hc'.newShort, fun h => (nomatch h)⟩
        · have hfuel' := (le_steps _ _).trans hfuel
          obtain ⟨fuel, rfl⟩ : ∃ f, fuel = f + 1 := ⟨fuel - 1, by simp at hfuel'; omega⟩
          rw [hins, hkey, insert_fork hab]
          refine ⟨true, _, rfl, ?_, fun h => (nomatch h)⟩
          have hfork := live_fork (a := x) (b := b) (live_graft hc nr)
            (live_graft (Live.value (v := v)) kr)
          unfold Radix.Tree.graft
          dsimp only
          split
          · exact hfork root
          · exact (hfork false).newShort
        · exact absurd hnk (hap.not_on_edge hwf)
      | @full _ ch flags ts hc hcached hhashed =>
        obtain ⟨dirty, c', heq, hc', hclean⟩ := ih (path ++ [a]) v (hc a) (hwf.2 a) hap.branch
          (steps_child hfuel (by simp))
        simp only [insert, heq, Radix.Tree.insert]
        cases dirty with
        | false =>
          rw [hclean rfl, update_eq_self]
          exact ⟨false, _, rfl, .full hc hcached hhashed, fun _ => rfl⟩
        | true =>
          exact ⟨true, _, rfl, .newFull fun i => update_rel hc hc' i, fun h => (nomatch h)⟩
      | hash hs hheld =>
        obtain ⟨dirty, n', heq, hlive', hclean⟩ := ih path v (hheld.live hs) hwf hap
          (steps_loaded _ _ hfuel)
        rw [insert_hash (by simp) (resolveHash_held hdb hheld hs path), heq]
        cases dirty with
        | false =>
          rw [hclean rfl]
          exact ⟨false, _, rfl, hheld.live hs, fun _ => rfl⟩
        | true => exact ⟨true, n', rfl, hlive', fun h => (nomatch h)⟩

/-! ## Deletion -/

theorem filter_live (h : ∀ i, Live known false (ch i) (ts i)) :
    ((finRange 17).filter fun i => !(ch i).isNil) =
      (finRange 17).filter fun i => !(ts i).isNil := by
  simp only [fun i => (h i).isNil]

theorem resolve_live (hdb : Within known db) (hlive : Live known root n t) (path : Hex) :
    ∃ n', resolve db n path = .ok n' ∧ Live known root n' t ∧ n'.asHash = none := by
  cases hlive with
  | nil => exact ⟨_, rfl, .nil, rfl⟩
  | value => exact ⟨_, rfl, .value, rfl⟩
  | short hc hcached hhashed => exact ⟨_, rfl, .short hc hcached hhashed, rfl⟩
  | full hc hcached hhashed => exact ⟨_, rfl, .full hc hcached hhashed, rfl⟩
  | hash hs hheld =>
    exact ⟨_, resolveHash_held hdb hheld hs path, hheld.live hs, by cases t <;> rfl⟩

theorem merge_live {n' : LiveNode} (key : Hex) (hlive : Live known false n t)
    (hlive' : Live known false n' t) (hn' : n'.asHash = none) :
    Live known root (mergeShort key n n') (Radix.Tree.merge key t) := by
  cases hlive' with
  | nil | value | full => exact hlive.newShort
  | short hc => exact hc.newShort
  | hash => cases hn'

theorem reduce_live (hdb : Within known db) (path : Hex) (root : Bool)
    (h : ∀ i, Live known false (ch i) (ts i)) (hlast : ts 16 = .nil ∨ ∃ v, ts 16 = .value v) :
    ∃ n', reduce db ch path = .ok n' ∧
      Live known root n' (Radix.Tree.collapse (finRange 17) ts) ∧ n'.asHash = none := by
  rw [reduce, Radix.Tree.collapse, filter_live h]
  rcases (finRange 17).filter fun i => !(ts i).isNil with _ | ⟨pos, _ | ⟨b, rest⟩⟩
  · exact ⟨_, rfl, .newFull h, rfl⟩
  · by_cases h16 : pos = 16
    · subst h16
      have hmerge : Radix.Tree.merge [16] (ts 16) = .short [16] (ts 16) := by
        rcases hlast with heq | ⟨v, heq⟩ <;> rw [heq, Radix.Tree.merge]
      refine ⟨.short [16] (ch 16) newFlag, by simp, ?_, rfl⟩
      show Live known root _ (Radix.Tree.merge [16] (ts 16))
      rw [hmerge]
      exact (h 16).newShort
    · obtain ⟨cnode, heq, hlive, hnh⟩ := resolve_live hdb (h pos) path
      simp only [ne_eq, h16, not_false_eq_true, if_true, heq]
      exact ⟨_, rfl, merge_live [pos] (h pos) hlive hnh, asHash_mergeShort _ _ _⟩
  · exact ⟨_, rfl, .newFull h, rfl⟩

theorem delete_live (hdb : Within known db) (fuel : Nat) :
    ∀ {root : Bool} {n : LiveNode} {t : Tree} {key : Hex} (path : Hex),
    Live known root n t → Sound t → t.Apart key → steps n key ≤ fuel →
    ∃ dirty n', delete db fuel n path key = .ok (dirty, n') ∧
      Live known root n' (t.erase (finRange 17) key) ∧
      (dirty = false → t.erase (finRange 17) key = t) ∧ n'.asHash = none := by
  induction fuel with
  | zero =>
    intro root n t key path _ _ _ hfuel
    have := le_steps n key
    omega
  | succ fuel ih =>
    intro root n t key path hlive hsound hap hfuel
    have hwf := hsound.wf
    cases hlive with
    | nil => exact ⟨false, _, rfl, .nil, fun _ => rfl, rfl⟩
    | value => exact ⟨true, _, rfl, .nil, fun h => (nomatch h), rfl⟩
    | @short _ nk c flags t hc hcached hhashed =>
      rcases Radix.Tree.erase_short (finRange 17) nk t key with
        ⟨hne, hdel⟩ | ⟨rfl, hdel⟩ | ⟨a, rest, rfl, hdel⟩
      · rw [hdel, delete_apart hne]
        exact ⟨false, _, rfl, .short hc hcached hhashed, fun _ => rfl, rfl⟩
      · rw [hdel, delete_whole]
        exact ⟨true, _, rfl, .nil, fun h => (nomatch h), rfl⟩
      · have hpos := length_pos_of_ne_nil hwf.1
        obtain ⟨dirty, c', heq, hc', hclean, hnh⟩ := ih (path ++ nk) hc hsound.child hap.child
          (steps_child hfuel (by simp; omega))
        rw [hdel, delete_below, heq]
        cases dirty with
        | false =>
          rw [hclean rfl, Radix.Tree.merge_solid hwf.2.1]
          exact ⟨false, _, rfl, .short hc hcached hhashed, fun _ => rfl, rfl⟩
        | true =>
          exact ⟨true, _, rfl, merge_live nk hc' hc' hnh, fun h => (nomatch h),
            asHash_mergeShort _ _ _⟩
    | @full _ ch flags ts hc hcached hhashed =>
      obtain ⟨a, rest, rfl⟩ := exists_cons_of_ne_nil (hap.ne_nil hwf)
      obtain ⟨dirty, c', heq, hc', hclean, -⟩ := ih (path ++ [a]) (hc a) (hsound.branch a)
        hap.branch (steps_child hfuel (by simp))
      rw [delete_branch, heq, Radix.Tree.erase]
      cases dirty with
      | false =>
        rw [hclean rfl, update_eq_self, Radix.Tree.collapse_eq_full mem_finRange hwf]
        exact ⟨false, _, rfl, .full hc hcached hhashed, fun _ => rfl, rfl⟩
      | true =>
        obtain ⟨n', hred, hlive', hnh⟩ := reduce_live hdb path root (update_rel hc hc')
          (last_update hsound a rest)
        refine ⟨true, n', ?_, hlive', fun h => (nomatch h), hnh⟩
        show (reduce db _ path >>= fun n => _) = _
        rw [hred]
        rfl
    | hash hs hheld =>
      obtain ⟨dirty, n', heq, hlive', hclean, hnh⟩ := ih path (hheld.live hs) hsound hap
        (steps_loaded _ _ hfuel)
      rw [delete_hash (resolveHash_held hdb hheld hs path), heq]
      cases dirty with
      | false =>
        rw [hclean rfl]
        exact ⟨false, _, rfl, hheld.live hs, fun _ => rfl, by cases t <;> rfl⟩
      | true => exact ⟨true, n', rfl, hlive', fun h => (nomatch h), hnh⟩

end Simulation

end GethComments.Trie
